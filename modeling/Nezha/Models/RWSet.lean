import Nezha.Core.Bytes
import Nezha.Core.Loop

/-!
# Read/write units and the node heap (`core/rwset_builder.go`)

An `RWNode` is one read or one write of a transaction. The Go program allocates
every node once, in `CreateRWNode`, and afterwards only passes pointers around:
the conflict queues and the transaction edges of `CreateGraph` share the same
nodes, so a sequence number written through one is seen through the other. The
model keeps that sharing explicit: a node is addressed by its place in the batch
and all mutation goes through one heap.

A key or a value is a Go `[]byte`, which may be nil: `none` is the nil slice and
`some []` the empty one. `reflect.DeepEqual` tells the two apart, so node
equality does too, while `ConvertByte2String` prints both as the empty string.

`Sequence` is an `int32` in Go. It is an integer here, and the three places of
`sortInQueue` that compute `maxWrite + 1` reduce the sum with `wrap32`, as
two's complement does; every other assignment copies a value already in range.
-/

namespace Nezha

/-- `RWSet`: a storage key and the value read from it or written to it, each
nil (`none`) or a byte slice. -/
structure RWSet where
  key : Option Bytes
  value : Option Bytes
  deriving DecidableEq, Repr

/-- `TransInfo`: the transaction a node belongs to. -/
structure TransInfo where
  id : Bytes
  timestamp : UInt32
  deriving DecidableEq, Repr

/-- The two labels `CreateRWNode` writes, `"r"` and `"w"`. -/
inductive Label where
  | r
  | w
  deriving DecidableEq, Repr

/-- `RWNode`, with its mutable `Sequence` and `isAssigned` fields. -/
structure RWNode where
  rwSet : RWSet
  transInfo : TransInfo
  label : Label
  sequence : Int
  isAssigned : Bool
  deriving DecidableEq, Repr

/-- The first `Sequence` a sorted queue hands out (`initialSequence`). -/
def initialSequence : Int := 10

/-- `math.MaxInt32`. -/
def maxInt32 : Int := 2147483647

/-- `math.MinInt32`. -/
def minInt32 : Int := -2147483648

/-- The `int32` a Go sum of two `int32`s yields: the integer reduced into
`[math.MinInt32, math.MaxInt32]` modulo `2 ^ 32`. -/
def wrap32 (x : Int) : Int := x.bmod (2 ^ 32)

/-- In range, `wrap32` is the identity. -/
theorem wrap32_of_mem {x : Int} (h₁ : minInt32 ≤ x) (h₂ : x ≤ maxInt32) : wrap32 x = x :=
  Int.bmod_eq_of_le (by simp [minInt32] at h₁; omega) (by simp [maxInt32] at h₂; omega)

/-- `math.MaxInt32 + 1` wraps to `math.MinInt32`. -/
theorem wrap32_maxInt32_succ : wrap32 (maxInt32 + 1) = minInt32 := by decide

/-- `CreateRWNode`: a read node for every read address, then a write node for
every written address, all of one transaction and still unnumbered. A value
list shorter than its address list is an index panic, as in Go. -/
def createRWNode (id : Bytes) (time : UInt32) (rAddr rValue wAddr wValue : List (Option Bytes)) :
    Except Fault (List RWNode) := do
  let info : TransInfo := ⟨id, time⟩
  let rNodes ← (List.range rAddr.length).mapM fun i => do
    let v ← sliceIndex rValue i
    pure ⟨⟨rAddr.getD i none, v⟩, info, .r, 0, false⟩
  let wNodes ← (List.range wAddr.length).mapM fun j => do
    let v ← sliceIndex wValue j
    pure ⟨⟨wAddr.getD j none, v⟩, info, .w, 0, false⟩
  pure (rNodes ++ wNodes)

/-- The keys a transaction reads. -/
def readKeys (tx : List RWNode) : List (Option Bytes) := (tx.filter (·.label = .r)).map (·.rwSet.key)

/-- The keys a transaction writes. -/
def writeKeys (tx : List RWNode) : List (Option Bytes) := (tx.filter (·.label = .w)).map (·.rwSet.key)

theorem mem_readKeys {tx : List RWNode} {k : Option Bytes} :
    k ∈ readKeys tx ↔ ∃ n ∈ tx, n.label = .r ∧ n.rwSet.key = k := by
  simp [readKeys, and_assoc]

theorem mem_writeKeys {tx : List RWNode} {k : Option Bytes} :
    k ∈ writeKeys tx ↔ ∃ n ∈ tx, n.label = .w ∧ n.rwSet.key = k := by
  simp [writeKeys, and_assoc]

/-- `ConvertByte2String`: `%x` prints a nil slice as the empty string. -/
def convertByte2String (bytes : Option Bytes) : Bytes := sprintfHex (bytes.getD [])

/-- Two keys print alike exactly when they hold the same bytes: when they are
equal, or one is nil and the other empty. -/
theorem convertByte2String_inj {a b : Option Bytes} :
    convertByte2String a = convertByte2String b ↔ a.getD [] = b.getD [] := sprintfHex_inj

/-- The keys of a batch, transaction by transaction. -/
def batchKeys (batch : List (List RWNode)) : List (Option Bytes) :=
  batch.flatMap fun tx => tx.map (·.rwSet.key)

/-- No key of the batch is nil while another is empty. `ConvertByte2String`
prints both as the empty string and `reflect.DeepEqual` tells them apart, so
only such a pair makes a queue name stand for two keys. The callers of
`CreateRWNode` pass 32-byte hashes or decimal strings, never nil. -/
def NoNilEmptyClash (batch : List (List RWNode)) : Prop :=
  ¬ (none ∈ batchKeys batch ∧ some [] ∈ batchKeys batch)

instance (batch : List (List RWNode)) : Decidable (NoNilEmptyClash batch) :=
  inferInstanceAs (Decidable (¬ _))

theorem mem_batchKeys {batch : List (List RWNode)} {k : Option Bytes} :
    k ∈ batchKeys batch ↔ ∃ tx ∈ batch, ∃ n ∈ tx, n.rwSet.key = k := by
  simp [batchKeys]

theorem key_mem_batchKeys {batch : List (List RWNode)} {i : Nat} {n : RWNode}
    (hn : n ∈ batch.getD i []) : n.rwSet.key ∈ batchKeys batch := by
  rw [List.getD_eq_getElem?_getD] at hn
  cases hget : batch[i]? with
  | none => simp [hget] at hn
  | some tx =>
    rw [hget, Option.getD_some] at hn
    exact List.mem_flatMap.mpr ⟨tx, List.mem_of_getElem? hget, List.mem_map_of_mem hn⟩

theorem mem_batchKeys_of_readKeys {batch : List (List RWNode)} {i : Nat} {k : Option Bytes}
    (h : k ∈ readKeys (batch.getD i [])) : k ∈ batchKeys batch := by
  obtain ⟨n, hn, -, rfl⟩ := mem_readKeys.mp h
  exact key_mem_batchKeys hn

theorem mem_batchKeys_of_writeKeys {batch : List (List RWNode)} {i : Nat} {k : Option Bytes}
    (h : k ∈ writeKeys (batch.getD i [])) : k ∈ batchKeys batch := by
  obtain ⟨n, hn, -, rfl⟩ := mem_writeKeys.mp h
  exact key_mem_batchKeys hn

/-- On such a batch two keys print alike exactly when they are equal. -/
theorem NoNilEmptyClash.name_eq_iff {batch : List (List RWNode)} (h : NoNilEmptyClash batch)
    {k k' : Option Bytes} (hk : k ∈ batchKeys batch) (hk' : k' ∈ batchKeys batch) :
    convertByte2String k = convertByte2String k' ↔ k = k' := by
  rw [convertByte2String_inj]
  refine ⟨fun heq => ?_, fun heq => heq ▸ rfl⟩
  cases k with
  | none =>
    cases k' with
    | none => rfl
    | some b' =>
      -- a nil key printed as an empty one
      obtain rfl : b' = [] := heq.symm
      exact absurd ⟨hk, hk'⟩ h
  | some b =>
    cases k' with
    | none =>
      obtain rfl : b = [] := heq
      exact absurd ⟨hk', hk⟩ h
    | some b' => exact congrArg some heq

/-- A pointer to a node: its transaction's index in the batch and its index in
that transaction's node list. -/
structure NodeRef where
  tx : Nat
  pos : Nat
  deriving DecidableEq, Repr

/-- The node store shared by every structure holding `*RWNode`. -/
def Heap := NodeRef → RWNode

/-- The node a batch places at a pointer; the default is never read. -/
def defaultNode : RWNode := ⟨⟨none, none⟩, ⟨[], 0⟩, .r, 0, false⟩

/-- The heap `CreateRWNode` leaves behind for a whole batch. -/
def Heap.ofBatch (batch : List (List RWNode)) : Heap :=
  fun p => ((batch[p.tx]?).bind (·[p.pos]?)).getD defaultNode

/-- The pointers of a batch, in the shape of `[][]*RWNode`. -/
def batchRefs (batch : List (List RWNode)) : List (List NodeRef) :=
  (List.range batch.length).map fun i =>
    (List.range (batch.getD i []).length).map fun j => ⟨i, j⟩

namespace Heap

/-- `p.Sequence = v`. -/
def setSequence (h : Heap) (p : NodeRef) (v : Int) : Heap :=
  fun q => if q = p then { h p with sequence := v } else h q

/-- `p.isAssigned = true`. -/
def setAssigned (h : Heap) (p : NodeRef) : Heap :=
  fun q => if q = p then { h p with isAssigned := true } else h q

/-- `reflect.DeepEqual(p, q)` on two `*RWNode`: the same pointer, or pointees
equal field by field. -/
def deepEqual (h : Heap) (p q : NodeRef) : Bool := p = q || decide (h p = h q)

/-- `p.assignSequence(edge)`: copy `p`'s number to every node of `edge` that is
not deeply equal to `p`. -/
def assignSequence (h : Heap) (p : NodeRef) (edge : List NodeRef) : Heap :=
  edge.foldl (fun h e => if h.deepEqual p e then h else h.setSequence e (h p).sequence) h

/-- The pattern at each numbering site of `sortInQueue`: set the node's
number, mark it assigned, then copy the number across its transaction. -/
def renumber (h : Heap) (p : NodeRef) (v : Int) (edge : List NodeRef) : Heap :=
  ((h.setSequence p v).setAssigned p).assignSequence p edge

@[simp] theorem setSequence_same (h : Heap) (p : NodeRef) (v : Int) :
    h.setSequence p v p = { h p with sequence := v } := by
  simp [setSequence]

theorem setSequence_of_ne (h : Heap) {p q : NodeRef} (v : Int) (hq : q ≠ p) :
    h.setSequence p v q = h q := by
  simp [setSequence, hq]

@[simp] theorem setAssigned_same (h : Heap) (p : NodeRef) :
    h.setAssigned p p = { h p with isAssigned := true } := by
  simp [setAssigned]

theorem setAssigned_of_ne (h : Heap) {p q : NodeRef} (hq : q ≠ p) :
    h.setAssigned p q = h q := by
  simp [setAssigned, hq]

/-- Everything but `Sequence` survives a numbering write. -/
theorem setSequence_static (h : Heap) (p q : NodeRef) (v : Int) :
    (h.setSequence p v q).rwSet = (h q).rwSet ∧ (h.setSequence p v q).transInfo = (h q).transInfo ∧
      (h.setSequence p v q).label = (h q).label ∧
      (h.setSequence p v q).isAssigned = (h q).isAssigned := by
  by_cases hq : q = p
  · subst hq
    simp
  · simp [setSequence_of_ne h v hq]

theorem setAssigned_static (h : Heap) (p q : NodeRef) :
    (h.setAssigned p q).rwSet = (h q).rwSet ∧ (h.setAssigned p q).transInfo = (h q).transInfo ∧
      (h.setAssigned p q).label = (h q).label ∧
      (h.setAssigned p q).sequence = (h q).sequence := by
  by_cases hq : q = p
  · subst hq
    simp
  · simp [setAssigned_of_ne h hq]

end Heap

end Nezha
