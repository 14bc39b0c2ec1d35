import Nezha.Core.MerkleTree
import Nezha.Core.Loop
import Nezha.Models.Transaction

/-!
# Merkle trees (`evm/splashmerkle`: `tree.go`, `leaf.go`, `root.go`)

`ConstructTree` puts the inputs in a first layer of `Nodes`, then hashes each
layer into the next, a pair by `utils.Hash` of the concatenation and a last
node without a neighbour by `utils.Hash` of its own bytes, until a layer has at
most one node; that node, or `blankNode` for no inputs, is the root. Every layer
is appended to `tree.Nodes`. Neighbours point at each other: the right one of a
pair through `SiblingLeft`, the left one through `SiblingRight`, and the left
one is marked `isLeaf`.

A pointer is modelled as the position, in `tree.Nodes`, of the copy of the
node it reaches. The nodes a pointer reaches are those of a layer slice, which
are never written after the copy into `tree.Nodes` is made, so the two agree.
`utils.Hash` is SHA-256, a parameter. A nil and an empty byte slice are the
same here; `CheckByteEq` tells them apart, which matters only for an empty
input or target.

The main result, `constructTree_eq`, gives the whole tree: the root is the top
of the hash tree the library's `MerkleTree.above` describes, and `Nodes` holds
its layers one after another, each with the pointers of `layerNodes`.
-/

namespace Nezha

namespace Merkle

/-- `Node`. A pointer is the position of its node in `tree.Nodes`. -/
structure Node where
  h : Bytes
  isLeaf : Bool
  siblingLeft : Option Nat
  siblingRight : Option Nat
  deriving DecidableEq, Repr

/-- `blankNode`, and the zero `Node`. -/
def blankNode : Node := ⟨[], false, none, none⟩

/-- `Root`. -/
structure Root where
  leaf : Node
  deriving DecidableEq, Repr

/-- `root.Bytes()`. -/
def Root.bytes (root : Root) : Bytes := root.leaf.h

/-- `Tree`. -/
structure Tree where
  root : Root
  nodes : List Node
  inputs : Nat
  deriving DecidableEq, Repr

/-- The message of the panic of `s[i]` outside a slice of length `n`. -/
def indexOutOfRange (i n : Nat) : String :=
  "runtime error: index out of range [" ++ i.repr ++ "] with length " ++ n.repr

/-- `s[i]` on a Go slice: the element, or a panic. -/
def sliceAt {α : Type} (s : List α) (i : Nat) : Except String α :=
  match s[i]? with
  | some a => .ok a
  | none => .error (indexOutOfRange i s.length)

/-- `utils.CheckByteEq(a, b)`. -/
def checkByteEq (a b : Bytes) : Bool := a.length == b.length && (a.zip b).all fun p => p.1 == p.2

/-- `n.GetSibling()`: the node a pointer of `n` reaches, the left one first. -/
def getSibling (nodes : List Node) (n : Node) : Option Node :=
  match n.siblingLeft, n.siblingRight with
  | some i, _ => nodes[i]?
  | none, some i => nodes[i]?
  | none, none => none

/-! ## `ConstructTree` -/

/-- Pass `i` of the loop of `constructBase`: an odd node and the one before it
point at each other, an even one is marked `isLeaf`. -/
def baseStep (input : List Bytes) (nodes : List Node) (i : Nat) : List Node :=
  let nodes := nodes.set i ⟨input.getD i [], false, none, none⟩
  if i % 2 ≠ 0 ∧ i > 0 then
    (nodes.modify i fun n => { n with siblingLeft := some (i - 1) }).modify (i - 1)
      fun n => { n with siblingRight := some i }
  else nodes.modify i fun n => { n with isLeaf := true }

/-- `tree.constructBase(input)`, with the slice it returns. -/
def constructBase (tree : Tree) (input : List Bytes) : Tree × List Node :=
  let nodes := (List.range input.length).foldl (baseStep input) (List.replicate input.length blankNode)
  ({ tree with nodes := nodes, inputs := input.length }, nodes)

section Hash

variable (sha256 : Bytes → Digest)

/-- The hash of `left := inNodes[i]` and `right := left.GetSibling()` in the loop
of `generateLayerFrom`; a node without a sibling is hashed alone. -/
def pairAt (nodes inNodes : List Node) (i : Nat) : Bytes :=
  let left := inNodes.getD i blankNode
  match getSibling nodes left with
  | none => (sha256 left.h).bytes
  | some right => (sha256 (left.h ++ right.h)).bytes

/-- Pass `i` of the loop of `generateLayerFrom` over `inNodes`, writing into
`outNodes`, whose copies go to `tree.Nodes` from `offset` on. -/
def layerStep (nodes inNodes : List Node) (offset outNodesCount : Nat) (outNodes : List Node) (i : Nat) :
    List Node :=
  if i % 2 = 0 then
    let hash := pairAt sha256 nodes inNodes i
    let out := i / 2
    let outNodes := outNodes.modify out fun n => { n with h := hash }
    if out + 1 < outNodesCount ∧ out % 2 = 0 then
      (outNodes.modify out fun n => { n with isLeaf := true, siblingRight := some (offset + out + 1) }).modify
        (out + 1) fun n => { n with siblingLeft := some (offset + out) }
    else outNodes
  else outNodes

/-- `tree.generateLayerFrom(inNodes)`, with the slice it returns.
`int(math.Round(float64(n) / 2.0))` is `(n + 1) / 2` for every `n` below `2 ^ 53`. -/
def generateLayerFrom (tree : Tree) (inNodes : List Node) : Tree × List Node :=
  let outNodesCount := (inNodes.length + 1) / 2
  let outNodes := (List.range inNodes.length).foldl
    (layerStep sha256 tree.nodes inNodes tree.nodes.length outNodesCount) (List.replicate outNodesCount blankNode)
  ({ tree with nodes := tree.nodes ++ outNodes }, outNodes)

theorem length_layerStep (nodes inNodes : List Node) (offset outNodesCount : Nat) (outNodes : List Node) (i : Nat) :
    (layerStep sha256 nodes inNodes offset outNodesCount outNodes i).length = outNodes.length := by
  unfold layerStep
  dsimp only
  split_ifs <;> simp

theorem length_generateLayerFrom (tree : Tree) (inNodes : List Node) :
    (generateLayerFrom sha256 tree inNodes).2.length = (inNodes.length + 1) / 2 := by
  exact foldl_invariant (P := fun l : List Node => l.length = (inNodes.length + 1) / 2) _
    (fun l _ _ hl => by rw [length_layerStep, hl]) _ List.length_replicate

/-- The loop of `ConstructTree`, from the layer `layer`. -/
def constructLoop (tree : Tree) (layer : List Node) : Tree :=
  match hr : generateLayerFrom sha256 tree layer with
  | (tree, newlayer) =>
    if h : newlayer.length = 1 then { tree with root := ⟨newlayer[0]⟩ }
    else if newlayer.length = 0 then { tree with root := ⟨blankNode⟩ }
    else constructLoop tree newlayer
termination_by layer.length
decreasing_by
  have hlen := congrArg (fun r => r.2.length) hr
  simp only [length_generateLayerFrom] at hlen
  omega

/-- `tree.ConstructTree(input)`. -/
def constructTree (tree : Tree) (input : List Bytes) : Tree :=
  match constructBase tree input with
  | (tree, layer) => constructLoop sha256 tree layer

end Hash

/-! ## The tree `ConstructTree` builds -/

/-- Node `j` of a layer of `count` nodes whose copies stand in `tree.Nodes` from
`offset` on, as `ConstructTree` leaves it. Only in the layer of the inputs is a
last, unpaired, even node marked `isLeaf`. -/
def layerNode (inputs : Bool) (offset count j : Nat) (h : Bytes) : Node where
  h := h
  isLeaf := decide (j % 2 = 0 ∧ (inputs = true ∨ j + 1 < count))
  siblingLeft := if j % 2 = 1 then some (offset + j - 1) else none
  siblingRight := if j % 2 = 0 ∧ j + 1 < count then some (offset + j + 1) else none

/-- A layer `hs` of bytes, with copies in `tree.Nodes` from `offset` on. -/
def layerNodes (inputs : Bool) (offset : Nat) (hs : List Bytes) : List Node :=
  hs.mapIdx fun j h => layerNode inputs offset hs.length j h

/-- Layers one after another from `offset` on; only the first may be the inputs. -/
def layout (inputs : Bool) (offset : Nat) : List (List Bytes) → List Node
  | [] => []
  | hs :: rest => layerNodes inputs offset hs ++ layout false (offset + hs.length) rest

@[simp] theorem length_layerNodes (inputs : Bool) (offset : Nat) (hs : List Bytes) :
    (layerNodes inputs offset hs).length = hs.length := by
  simp [layerNodes]

theorem getElem?_layerNodes (inputs : Bool) (offset : Nat) (hs : List Bytes) {j : Nat} (h : j < hs.length) :
    (layerNodes inputs offset hs)[j]? = some (layerNode inputs offset hs.length j hs[j]) := by
  simp [layerNodes, h]

@[simp] theorem length_layout : ∀ (inputs : Bool) (offset : Nat) (ls : List (List Bytes)),
    (layout inputs offset ls).length = (ls.map List.length).sum
  | _, _, [] => rfl
  | inputs, offset, hs :: rest => by simp [layout, length_layout false _ rest]

/-- Node `j` of layer `m` stands after the nodes of the layers below it. -/
theorem getElem?_layout : ∀ (ls : List (List Bytes)) (inputs : Bool) (offset : Nat) {m j : Nat}
    (hm : m < ls.length) (hj : j < ls[m].length),
    (layout inputs offset ls)[((ls.take m).map List.length).sum + j]? =
      some (layerNode (inputs && m == 0) (offset + ((ls.take m).map List.length).sum) ls[m].length j ls[m][j])
  | hs :: rest, inputs, offset, 0, j, _, hj => by
    simp only [List.getElem_cons_zero] at hj
    simp only [layout, List.take_zero, List.map_nil, List.sum_nil, Nat.zero_add, Nat.add_zero,
      List.getElem_cons_zero, beq_self_eq_true, Bool.and_true]
    rw [List.getElem?_append_left (by simpa using hj), getElem?_layerNodes _ _ _ hj]
  | hs :: rest, inputs, offset, m + 1, j, hm, hj => by
    have hm' : m < rest.length := by simpa using hm
    simp only [layout, List.take_succ_cons, List.map_cons, List.sum_cons, List.getElem_cons_succ] at hj ⊢
    rw [List.getElem?_append_right (by simp; omega), length_layerNodes,
      show hs.length + ((rest.take m).map List.length).sum + j - hs.length =
        ((rest.take m).map List.length).sum + j by omega,
      getElem?_layout rest false (offset + hs.length) hm' hj]
    simp [Nat.add_assoc]

/-! ### The loop of `constructBase` -/

/-- The nodes after the first `k` passes of the loop of `constructBase`. -/
def baseAt (input : List Bytes) (k j : Nat) : Node :=
  if j < k then layerNode true 0 k j (input.getD j []) else blankNode

/-- What pass `i` writes: node `i` afresh, and for an odd `i` the pointer of node `i - 1`. -/
theorem getElem?_baseStep (input : List Bytes) (nodes : List Node) {i : Nat} (hi : i < nodes.length) (j : Nat) :
    (baseStep input nodes i)[j]? =
      if j = i then some ⟨input.getD i [], decide (i % 2 = 0), if i % 2 = 1 then some (i - 1) else none, none⟩
      else if i % 2 = 1 ∧ j = i - 1 then nodes[j]?.map fun n => { n with siblingRight := some i }
      else nodes[j]? := by
  unfold baseStep
  dsimp only
  by_cases hodd : i % 2 ≠ 0 ∧ i > 0
  · -- an odd pass writes node `i` and the pointer of node `i - 1`
    rw [if_pos hodd]
    have hi1 : ¬ i - 1 = i := by omega
    have hodd' : i % 2 = 1 := by omega
    by_cases hj : j = i
    · subst hj
      simp [hi, hi1, hodd']
    · by_cases hj1 : j = i - 1
      · subst hj1
        simp [hi1, Ne.symm hi1, hodd']
      · simp [hj, hj1, Ne.symm hj, Ne.symm hj1]
  · -- an even pass writes node `i` only
    rw [if_neg hodd]
    have heven : i % 2 = 0 := by omega
    by_cases hj : j = i
    · subst hj
      simp [hi, heven]
    · simp [hj, Ne.symm hj, heven]

/-- Only the left node of the last pair gains a pointer when the layer grows by one. -/
theorem layerNode_true_succ {offset count j : Nat} (h : Bytes) (hj : ¬ (j % 2 = 0 ∧ j + 1 = count)) :
    layerNode true offset (count + 1) j h = layerNode true offset count j h := by
  unfold layerNode
  congr 1
  · simp
  · exact if_congr (by omega) rfl rfl

/-- Pass `k` numbers node `k` and makes it and node `k - 1` neighbours when `k` is odd. -/
theorem baseStep_baseAt {input : List Bytes} {k : Nat} (hk : k < input.length) :
    baseStep input ((List.range input.length).map (baseAt input k)) k =
      (List.range input.length).map (baseAt input (k + 1)) := by
  refine List.ext_getElem? fun j => ?_
  rw [getElem?_baseStep input _ (by simpa using hk)]
  simp only [List.getElem?_map]
  by_cases hj : j = k
  · subst hj
    simp [hk, baseAt, layerNode]
  by_cases hleft : k % 2 = 1 ∧ j = k - 1
  · -- node `k - 1` gains `k` as its right neighbour
    obtain ⟨hodd, rfl⟩ := hleft
    have hlt : k - 1 < input.length := by omega
    rw [if_neg hj, if_pos (And.intro hodd rfl)]
    simp [hlt, baseAt, layerNode, show k - 1 < k by omega, show k - 1 < k + 1 by omega,
      show (k - 1) % 2 = 0 by omega, show k - 1 + 1 = k by omega]
  · rw [if_neg hj, if_neg hleft]
    by_cases hlt : j < input.length
    · rw [List.getElem?_range hlt]
      show some (baseAt input k j) = some (baseAt input (k + 1) j)
      unfold baseAt
      by_cases hjk : j < k
      · rw [if_pos hjk, if_pos (by omega), layerNode_true_succ _ (by omega)]
      · rw [if_neg hjk, if_neg (by omega)]
    · rw [List.getElem?_eq_none (by simpa using hlt)]
      rfl

theorem foldl_baseStep (input : List Bytes) : ∀ k ≤ input.length,
    (List.range k).foldl (baseStep input) (List.replicate input.length blankNode) =
      (List.range input.length).map (baseAt input k)
  | 0, _ => List.ext_getElem (by simp) fun j _ _ => by simp [baseAt]
  | k + 1, hk => by
    rw [List.range_succ, List.foldl_append, foldl_baseStep input k (Nat.le_of_succ_le hk), List.foldl_cons,
      List.foldl_nil, baseStep_baseAt hk]

theorem constructBase_eq (tree : Tree) (input : List Bytes) :
    constructBase tree input =
      ({ tree with nodes := layerNodes true 0 input, inputs := input.length }, layerNodes true 0 input) := by
  have hnodes : (List.range input.length).foldl (baseStep input) (List.replicate input.length blankNode) =
      layerNodes true 0 input := by
    rw [foldl_baseStep input _ (Nat.le_refl _)]
    refine List.ext_getElem? fun j => ?_
    by_cases hj : j < input.length
    · rw [List.getElem?_map, List.getElem?_range hj, getElem?_layerNodes _ _ _ hj]
      simp only [Option.map_some, baseAt, if_pos hj, List.getD_eq_getElem?_getD, List.getElem?_eq_getElem hj,
        Option.getD_some]
    · rw [List.getElem?_eq_none (by simpa using hj), List.getElem?_eq_none (by simpa using hj)]
  simp only [constructBase, hnodes]

/-! ### The loop of `generateLayerFrom` -/

/-- The hash of two neighbours. -/
def pairHash (sha256 : Bytes → Digest) (a b : Bytes) : Bytes := (sha256 (a ++ b)).bytes

/-- The hash of a node without a neighbour. -/
def loneHash (sha256 : Bytes → Digest) (a : Bytes) : Bytes := (sha256 a).bytes

section Layer

variable (sha256 : Bytes → Digest)

/-- The layer above `hs`. -/
def upLayer (hs : List Bytes) : List Bytes := MerkleTree.up (pairHash sha256) (loneHash sha256) hs

@[simp] theorem length_upLayer (hs : List Bytes) : (upLayer sha256 hs).length = (hs.length + 1) / 2 :=
  MerkleTree.length_up _ _ hs

/-- Node `o` of a layer `up` after the passes that wrote its first `q` nodes. -/
def layerAt (up : List Bytes) (offset q o : Nat) : Node where
  h := if o < q then up.getD o [] else []
  isLeaf := decide (o < q ∧ o % 2 = 0 ∧ o + 1 < up.length)
  siblingLeft := if o % 2 = 1 ∧ o ≤ q then some (offset + o - 1) else none
  siblingRight := if o < q ∧ o % 2 = 0 ∧ o + 1 < up.length then some (offset + o + 1) else none

/-- A pass over the left node of a pair, with copies in `nodes`, hashes it with its neighbour. -/
theorem pairAt_layerNodes {pre : List Node} {inputs : Bool} {hs : List Bytes} {i : Nat} (hi : i % 2 = 0)
    (hlt : i < hs.length) :
    pairAt sha256 (pre ++ layerNodes inputs pre.length hs) (layerNodes inputs pre.length hs) i =
      (upLayer sha256 hs).getD (i / 2) [] := by
  have hleft : (layerNodes inputs pre.length hs).getD i blankNode = layerNode inputs pre.length hs.length i hs[i] := by
    rw [List.getD_eq_getElem?_getD, getElem?_layerNodes _ _ _ hlt, Option.getD_some]
  unfold pairAt upLayer
  rw [hleft]
  dsimp only
  by_cases hpair : i + 1 < hs.length
  · -- the right neighbour is reached through `SiblingRight`, at its copy in `nodes`
    have hsib : getSibling (pre ++ layerNodes inputs pre.length hs) (layerNode inputs pre.length hs.length i hs[i]) =
        some (layerNode inputs pre.length hs.length (i + 1) hs[i + 1]) := by
      simp only [getSibling, layerNode, show ¬ i % 2 = 1 by omega, if_false, if_pos (And.intro hi hpair)]
      rw [List.getElem?_append_right (by omega), show pre.length + i + 1 - pre.length = i + 1 by omega,
        getElem?_layerNodes _ _ _ hpair]
      rfl
    rw [hsib, MerkleTree.getD_up_pair _ _ hs (by omega), show 2 * (i / 2) = i by omega]
    simp only [layerNode, pairHash, List.getD_eq_getElem?_getD, List.getElem?_eq_getElem hlt,
      List.getElem?_eq_getElem hpair, Option.getD_some]
  · have hsib : getSibling (pre ++ layerNodes inputs pre.length hs) (layerNode inputs pre.length hs.length i hs[i]) =
        none := by
      simp [getSibling, layerNode, show ¬ i % 2 = 1 by omega, hpair]
    rw [hsib, MerkleTree.getD_up_lone _ _ hs (by omega), show 2 * (i / 2) = i by omega]
    simp only [layerNode, loneHash, List.getD_eq_getElem?_getD, List.getElem?_eq_getElem hlt, Option.getD_some]

/-- What pass `i` writes: the hash at node `i / 2` and, when it opens a pair of
the new layer, the pointers between it and the next node. -/
theorem getElem?_layerStep (nodes inNodes : List Node) (offset count : Nat) (outNodes : List Node) {i : Nat}
    (hi : i % 2 = 0) (j : Nat) :
    (layerStep sha256 nodes inNodes offset count outNodes i)[j]? =
      if j = i / 2 then outNodes[j]?.map fun n =>
        if i / 2 + 1 < count ∧ i / 2 % 2 = 0 then
          { n with h := pairAt sha256 nodes inNodes i, isLeaf := true, siblingRight := some (offset + i / 2 + 1) }
        else { n with h := pairAt sha256 nodes inNodes i }
      else if j = i / 2 + 1 ∧ i / 2 + 1 < count ∧ i / 2 % 2 = 0 then
        outNodes[j]?.map fun n => { n with siblingLeft := some (offset + i / 2) }
      else outNodes[j]? := by
  unfold layerStep
  rw [if_pos hi]
  dsimp only
  by_cases hpair : i / 2 + 1 < count ∧ i / 2 % 2 = 0
  · rw [if_pos hpair]
    by_cases hj : j = i / 2
    · subst hj
      simp [hpair]
      cases outNodes[i / 2]? <;> rfl
    · by_cases hj1 : j = i / 2 + 1
      · subst hj1
        simp [hpair]
      · simp [hj, hj1, Ne.symm hj, Ne.symm hj1]
  · rw [if_neg hpair]
    by_cases hj : j = i / 2
    · subst hj
      simp [hpair]
    · simp [hj, Ne.symm hj, hpair]

/-- Pass `m` over a layer `hs` writes node `m / 2` of the layer above when `m` is even. -/
theorem layerStep_layerAt {pre : List Node} {inputs : Bool} {hs : List Bytes} (offset : Nat) {m : Nat}
    (hm : m < hs.length) :
    layerStep sha256 (pre ++ layerNodes inputs pre.length hs) (layerNodes inputs pre.length hs) offset
        (upLayer sha256 hs).length ((List.range (upLayer sha256 hs).length).map
          (layerAt (upLayer sha256 hs) offset ((m + 1) / 2))) m =
      (List.range (upLayer sha256 hs).length).map (layerAt (upLayer sha256 hs) offset ((m + 2) / 2)) := by
  by_cases hodd : m % 2 = 1
  · -- an odd pass writes nothing
    rw [layerStep, if_neg (by omega), show (m + 2) / 2 = (m + 1) / 2 by omega]
  have heven : m % 2 = 0 := by omega
  have hU := length_upLayer sha256 hs
  have hq : (m + 1) / 2 = m / 2 := by omega
  have hq' : (m + 2) / 2 = m / 2 + 1 := by omega
  refine List.ext_getElem? fun j => ?_
  rw [getElem?_layerStep sha256 _ _ _ _ _ heven, pairAt_layerNodes sha256 heven hm, hq, hq']
  simp only [List.getElem?_map]
  by_cases hj : j = m / 2
  · -- the node the pass hashes
    subst hj
    rw [if_pos rfl, List.getElem?_range (by simp; omega)]
    show some _ = some _
    congr 1
    split_ifs with hpair <;> simp [layerAt, hpair] <;> omega
  by_cases hj1 : j = m / 2 + 1 ∧ m / 2 + 1 < (upLayer sha256 hs).length ∧ m / 2 % 2 = 0
  · -- the right neighbour gains its pointer back
    obtain ⟨rfl, hlt, hpair⟩ := hj1
    rw [if_neg hj, if_pos ⟨rfl, hlt, hpair⟩, List.getElem?_range hlt]
    show some _ = some _
    congr 1
    simp [layerAt]
    omega
  · rw [if_neg hj, if_neg hj1]
    by_cases hlt : j < (upLayer sha256 hs).length
    · rw [List.getElem?_range hlt]
      show some _ = some _
      congr 1
      simp only [layerAt, Node.mk.injEq]
      refine ⟨if_congr (by omega) rfl rfl, by simp only [decide_eq_decide]; omega, if_congr (by omega) rfl rfl,
        if_congr (by omega) rfl rfl⟩
    · rw [List.getElem?_eq_none (by simpa using hlt)]
      rfl

theorem foldl_layerStep {pre : List Node} {inputs : Bool} {hs : List Bytes} (offset : Nat) :
    ∀ m ≤ hs.length,
      (List.range m).foldl (layerStep sha256 (pre ++ layerNodes inputs pre.length hs) (layerNodes inputs pre.length hs)
          offset (upLayer sha256 hs).length) (List.replicate (upLayer sha256 hs).length blankNode) =
        (List.range (upLayer sha256 hs).length).map (layerAt (upLayer sha256 hs) offset ((m + 1) / 2))
  | 0, _ => List.ext_getElem (by simp) fun j _ _ => by simp [layerAt, blankNode]; omega
  | m + 1, hm => by
    rw [List.range_succ, List.foldl_append, foldl_layerStep offset m (Nat.le_of_succ_le hm), List.foldl_cons,
      List.foldl_nil, layerStep_layerAt sha256 offset hm]

/-- `generateLayerFrom` on a layer of `tree.Nodes` appends the layer above,
with its pointers, to `tree.Nodes`. -/
theorem generateLayerFrom_eq (tree : Tree) {pre : List Node} {inputs : Bool} {hs : List Bytes}
    (hnodes : tree.nodes = pre ++ layerNodes inputs pre.length hs) :
    generateLayerFrom sha256 tree (layerNodes inputs pre.length hs) =
      ({ tree with nodes := tree.nodes ++ layerNodes false tree.nodes.length (upLayer sha256 hs) },
        layerNodes false tree.nodes.length (upLayer sha256 hs)) := by
  have hcount : ((layerNodes inputs pre.length hs).length + 1) / 2 = (upLayer sha256 hs).length := by simp
  have hout : (List.range (layerNodes inputs pre.length hs).length).foldl
      (layerStep sha256 tree.nodes (layerNodes inputs pre.length hs) tree.nodes.length (upLayer sha256 hs).length)
      (List.replicate (upLayer sha256 hs).length blankNode) = layerNodes false tree.nodes.length (upLayer sha256 hs) := by
    rw [length_layerNodes, hnodes, foldl_layerStep sha256 _ _ (Nat.le_refl _), ← hnodes,
      ← length_upLayer sha256 hs]
    refine List.ext_getElem? fun o => ?_
    by_cases ho : o < (upLayer sha256 hs).length
    swap
    · rw [List.getElem?_eq_none (by simpa using ho), List.getElem?_eq_none (by simpa using ho)]
    rw [List.getElem?_map, List.getElem?_range ho, getElem?_layerNodes _ _ _ ho]
    show some _ = some _
    simp only [layerAt, layerNode, Option.some.injEq, Node.mk.injEq]
    refine ⟨?_, ?_, if_congr (by omega) rfl rfl, if_congr (by omega) rfl rfl⟩
    · rw [if_pos ho, List.getD_eq_getElem?_getD, List.getElem?_eq_getElem ho, Option.getD_some]
    · simp only [decide_eq_decide, Bool.false_eq_true, false_or]
      omega
  simp only [generateLayerFrom, hcount, hout]

/-! ### The loop of `ConstructTree` -/

/-- One pass of the loop of `ConstructTree`. -/
theorem constructLoop_step {tree tree' : Tree} {layer newlayer : List Node}
    (h : generateLayerFrom sha256 tree layer = (tree', newlayer)) :
    constructLoop sha256 tree layer =
      if h1 : newlayer.length = 1 then { tree' with root := ⟨newlayer[0]⟩ }
      else if newlayer.length = 0 then { tree' with root := ⟨blankNode⟩ }
      else constructLoop sha256 tree' newlayer := by
  rw [constructLoop]
  split
  rename_i hr
  rw [h] at hr
  cases hr
  rfl

/-- From a layer of `tree.Nodes`, the loop appends every layer above it and
takes the top one's node, if any, as the root. -/
theorem constructLoop_eq (tree : Tree) {pre : List Node} {inputs : Bool} (hs : List Bytes)
    (hnodes : tree.nodes = pre ++ layerNodes inputs pre.length hs) :
    constructLoop sha256 tree (layerNodes inputs pre.length hs) =
      { tree with
        nodes := tree.nodes ++ layout false tree.nodes.length (MerkleTree.above (pairHash sha256) (loneHash sha256) hs),
        root := ⟨⟨(MerkleTree.top (pairHash sha256) (loneHash sha256) hs).headD [], false, none, none⟩⟩ } := by
  have hU := length_upLayer sha256 hs
  rw [constructLoop_step sha256 (generateLayerFrom_eq sha256 tree hnodes)]
  by_cases hstop : (upLayer sha256 hs).length ≤ 1
  · -- the layer above is the top one
    have habove : MerkleTree.above (pairHash sha256) (loneHash sha256) hs = [upLayer sha256 hs] := by
      rw [MerkleTree.above]
      exact if_pos hstop
    have htop : MerkleTree.top (pairHash sha256) (loneHash sha256) hs = upLayer sha256 hs := by
      rw [MerkleTree.top]
      exact if_pos hstop
    rw [habove, htop]
    by_cases h1 : (upLayer sha256 hs).length = 1
    · rw [dif_pos (by simpa using h1)]
      obtain ⟨r, hr⟩ : ∃ r, upLayer sha256 hs = [r] := List.length_eq_one_iff.mp h1
      simp [hr, layout, layerNodes, layerNode]
    · have h0 : upLayer sha256 hs = [] := List.eq_nil_of_length_eq_zero (by omega)
      rw [dif_neg (by simpa using h1), if_pos (by simp [h0])]
      simp [h0, layout, layerNodes, blankNode]
  · -- the loop goes on from the layer above
    have habove : MerkleTree.above (pairHash sha256) (loneHash sha256) hs =
        upLayer sha256 hs :: MerkleTree.above (pairHash sha256) (loneHash sha256) (upLayer sha256 hs) := by
      rw [MerkleTree.above]
      exact if_neg hstop
    have htop : MerkleTree.top (pairHash sha256) (loneHash sha256) hs =
        MerkleTree.top (pairHash sha256) (loneHash sha256) (upLayer sha256 hs) := by
      rw [MerkleTree.top]
      exact if_neg hstop
    rw [dif_neg (by rw [length_layerNodes]; omega), if_neg (by rw [length_layerNodes]; omega),
      constructLoop_eq { tree with nodes := tree.nodes ++ layerNodes false tree.nodes.length (upLayer sha256 hs) }
        (upLayer sha256 hs) (show _ = tree.nodes ++ _ from rfl),
      habove, htop]
    simp [layout, List.append_assoc]
termination_by hs.length
decreasing_by simp only [length_upLayer] at *; omega

/-- `ConstructTree` builds the hash tree of its inputs: `Nodes` holds the input
layer and every layer above it, one after another, with the pointers of
`layerNodes`, and the root is the node of the top layer, or `blankNode` for no
inputs. -/
theorem constructTree_eq (tree : Tree) (input : List Bytes) :
    constructTree sha256 tree input =
      ⟨⟨⟨(MerkleTree.top (pairHash sha256) (loneHash sha256) input).headD [], false, none, none⟩⟩,
        layout true 0 (input :: MerkleTree.above (pairHash sha256) (loneHash sha256) input), input.length⟩ := by
  simp only [constructTree, constructBase_eq]
  rw [show layerNodes true 0 input = layerNodes true ([] : List Node).length input from rfl,
    constructLoop_eq sha256 _ input rfl]
  simp [layout]

end Layer

/-- `tree.IncludesInput(input)`: the loop stops at the first input equal to
`input`, and panics on reaching past `tree.Nodes` before. -/
def includesInput (tree : Tree) (input : Bytes) : Except String Bool :=
  (List.range tree.inputs).anyM fun i => do
    let n ← sliceAt tree.nodes i
    pure (checkByteEq n.h input)

/-- `tree.Includes(input)`. -/
def includes (tree : Tree) (input : Bytes) : Bool := tree.nodes.any fun n => checkByteEq n.h input

/-- `tree.GetIndex(target)`: the first node equal to `target`, else `0`. -/
def getIndex (tree : Tree) (target : Bytes) : Nat := (tree.nodes.findIdx? fun n => checkByteEq n.h target).getD 0

theorem checkByteEq_iff : ∀ a b : Bytes, checkByteEq a b = true ↔ a = b
  | [], [] => by simp [checkByteEq]
  | [], _ :: _ => by simp [checkByteEq]
  | _ :: _, [] => by simp [checkByteEq]
  | x :: a, y :: b => by
    have ih := checkByteEq_iff a b
    simp only [checkByteEq, Bool.and_eq_true, beq_iff_eq] at ih
    simp only [checkByteEq, List.length_cons, List.zip_cons_cons, List.all_cons, Bool.and_eq_true, beq_iff_eq,
      Nat.add_right_cancel_iff, List.cons.injEq]
    constructor
    · rintro ⟨hlen, hxy, hall⟩
      exact ⟨hxy, ih.mp ⟨hlen, hall⟩⟩
    · rintro ⟨rfl, rfl⟩
      exact ⟨rfl, rfl, (ih.mpr rfl).2⟩

@[simp] theorem checkByteEq_self (a : Bytes) : checkByteEq a a = true := (checkByteEq_iff a a).mpr rfl

/-- `IncludesInput` on a tree whose `Nodes` holds at least its inputs. -/
theorem includesInput_eq {tree : Tree} (h : tree.inputs ≤ tree.nodes.length) (input : Bytes) :
    includesInput tree input =
      .ok ((List.range tree.inputs).any fun i => checkByteEq (tree.nodes.getD i blankNode).h input) := by
  refine anyM_eq_ok _ fun i hi => ?_
  have hi' : i < tree.nodes.length := by simp at hi; omega
  simp [sliceAt, List.getElem?_eq_getElem hi', List.getD_eq_getElem?_getD]

/-- When no two nodes hold the same bytes, `GetIndex` finds a node's own position. -/
theorem getIndex_of_nodup {tree : Tree} (hnodup : (tree.nodes.map Node.h).Nodup) {p : Nat} {n : Node}
    (hp : tree.nodes[p]? = some n) : getIndex tree n.h = p := by
  obtain ⟨hlt, rfl⟩ := List.getElem?_eq_some_iff.mp hp
  have hfind : tree.nodes.findIdx? (fun m => checkByteEq m.h tree.nodes[p].h) = some p := by
    rw [List.findIdx?_eq_some_iff_getElem]
    refine ⟨hlt, (checkByteEq_iff _ _).mpr rfl, fun q hq heq => ?_⟩
    have hq₁ : q < (tree.nodes.map Node.h).length := by simp; omega
    have hp₁ : p < (tree.nodes.map Node.h).length := by simpa using hlt
    have hmap : (tree.nodes.map Node.h)[q] = (tree.nodes.map Node.h)[p] := by
      simpa using (checkByteEq_iff _ _).mp heq
    have := (List.Nodup.getElem_inj_iff hnodup).mp hmap
    omega
  rw [getIndex, hfind]
  rfl

end Merkle

end Nezha
