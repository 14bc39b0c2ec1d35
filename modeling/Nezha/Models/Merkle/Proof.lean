import Nezha.Models.Merkle.Tree

/-!
# Inclusion proofs (`evm/splashmerkle/proof.go`)

`GenerateProofFor` starts at the node `GetIndex` finds for the target and walks
up. A pass hashes the node with its sibling, the one marked `isLeaf` on the
left, looks the hash up with `GetIndex` and records the sibling of the node it
finds; it stops when that node is the last of `tree.Nodes`, or after `MAXDEPTH`
passes. `Verify` hashes the target with the helpers in turn and compares the
result with the root: the first step puts the target on the left when
`isTargetLeft`, every later step puts a helper marked `isLeaf` on the left.

On a tree over `2 ^ k` inputs whose nodes hold pairwise different bytes, the
helpers of an input are the first `min k 5` steps of its path in the library's
hash tree (`generateProofFor_spec`), and `Verify` climbs along them
(`verify_eq`). So the proof of an input verifies exactly when the tree has at
most five layers above its inputs (`verify_generateProofFor`): from `2 ^ 6`
inputs on, the loop stops below the root.
-/

namespace Nezha

namespace Merkle

/-- `ProofHelper`. -/
structure ProofHelper where
  h : Bytes
  isLeaf : Bool
  deriving DecidableEq, Repr

/-- `Proof`. -/
structure Proof where
  target : Bytes
  helpers : List ProofHelper
  isTargetLeft : Bool
  deriving DecidableEq, Repr

/-- `MAXDEPTH`. -/
def maxDepth : Nat := 4

/-- A step of a path of the library, as the helper that records it. -/
def ProofHelper.ofStep (s : Bytes × Bool) : ProofHelper := ⟨s.1, s.2⟩

section Hash

variable (sha256 : Bytes → Digest)

/-- A pass of the loop of `Verify`: a helper marked `isLeaf` is hashed on the left. -/
def verifyStep (hash : Bytes) (helper : ProofHelper) : Bytes :=
  if helper.isLeaf then (sha256 (helper.h ++ hash)).bytes else (sha256 (hash ++ helper.h)).bytes

/-- `proof.Verify(merklerootHash)`. It panics on a proof without helpers. -/
def verify (proof : Proof) (merklerootHash : Bytes) : Except String Bool := do
  let first ← sliceAt proof.helpers 0
  let hash :=
    if proof.isTargetLeft then (sha256 (proof.target ++ first.h)).bytes.take 32
    else (sha256 (first.h ++ proof.target)).bytes.take 32
  let hash := (proof.helpers.drop 1).foldl (verifyStep sha256) hash
  pure (checkByteEq hash merklerootHash)

/-- The helper recorded for the node `n` found: its sibling, or `buf` with the
node's own `isLeaf` when it has none. -/
def helperFor (nodes : List Node) (n : Node) (buf : Bytes) : ProofHelper :=
  match getSibling nodes n with
  | some sib => ⟨sib.h, sib.isLeaf⟩
  | none => ⟨buf, n.isLeaf⟩

/-- The hash `buf` of a pass of `GenerateProofFor` from the node `n`. A node
marked `isLeaf` is the left one and its sibling, if any, the right one; any
other node is the right one, and without a sibling there is no left node to
read `H` from. -/
def parentHash (nodes : List Node) (n : Node) : Except String Bytes :=
  if n.isLeaf then
    match getSibling nodes n with
    | some right => .ok (sha256 (n.h ++ right.h)).bytes
    | none => .ok (sha256 n.h).bytes
  else
    match getSibling nodes n with
    | some left => .ok (sha256 (left.h ++ n.h)).bytes
    | none => .error nilDereference

/-- The loop of `GenerateProofFor`, with `passes` passes left, from the node at `index`. -/
def proofLoop (tree : Tree) : Nat → Nat → List ProofHelper → Except String (List ProofHelper)
  | 0, _, helpers => .ok helpers
  | passes + 1, index, helpers => do
    let n ← sliceAt tree.nodes index
    let buf ← parentHash sha256 tree.nodes n
    let index := getIndex tree buf
    -- `len(tree.Nodes)` is positive here, so `- 1` does not truncate
    if index ≥ tree.nodes.length - 1 then
      -- `fmt.Println` reads `tree.Nodes[index].H`
      let _ ← sliceAt tree.nodes index
      pure helpers
    else
      let n ← sliceAt tree.nodes index
      proofLoop tree passes index (helpers ++ [helperFor tree.nodes n buf])

/-- `tree.GenerateProofFor(target)`: the proof and the error it returns. `buf`
is still nil when the target has no sibling. -/
def generateProofFor (tree : Tree) (target : Bytes) : Except String (Proof × Option String) := do
  let found ← includesInput tree target
  if !found then pure (⟨[], [], false⟩, some "target not contained withing tree inputs")
  else
    let index := getIndex tree target
    let n ← sliceAt tree.nodes index
    let helpers ← proofLoop sha256 tree maxDepth index [helperFor tree.nodes n []]
    pure (⟨target, helpers, n.isLeaf⟩, none)

/-! ## `Verify` climbs along the helpers -/

theorem take_bytes (d : Digest) : d.bytes.take 32 = d.bytes :=
  List.take_of_length_le (by rw [d.length_eq])

/-- The loop of `Verify` climbs from `hash`, each helper marked `isLeaf` on the left. -/
theorem foldl_verifyStep : ∀ (rest : List ProofHelper) (hash : Bytes),
    rest.foldl (verifyStep sha256) hash =
      MerkleTree.climb (pairHash sha256) hash (rest.map fun helper => (helper.h, helper.isLeaf))
  | [], _ => rfl
  | helper :: rest, hash => by
    rw [List.foldl_cons, foldl_verifyStep rest, List.map_cons, MerkleTree.climb_cons]
    rfl

/-- `Verify` climbs from the target: the first helper is on the left unless the
target is, each later one when it is marked `isLeaf`. -/
theorem verify_eq {proof : Proof} {first : ProofHelper} {rest : List ProofHelper}
    (h : proof.helpers = first :: rest) (merklerootHash : Bytes) :
    verify sha256 proof merklerootHash =
      .ok (checkByteEq (MerkleTree.climb (pairHash sha256) proof.target
        ((first.h, !proof.isTargetLeft) :: rest.map fun helper => (helper.h, helper.isLeaf))) merklerootHash) := by
  have hfirst : sliceAt proof.helpers 0 = .ok first := by rw [h]; rfl
  rw [verify, hfirst, except_ok_bind]
  dsimp only
  rw [h, List.drop_succ_cons, List.drop_zero, foldl_verifyStep, MerkleTree.climb_cons]
  cases proof.isTargetLeft <;> simp only [take_bytes, pairHash, Bool.not_true, Bool.not_false] <;> rfl

/-- `Verify` of helpers that record a path, the target on the side the first
step does not put its neighbour on. -/
theorem verify_ofStep (target s : Bytes) (left : Bool) (rest : List (Bytes × Bool)) (merklerootHash : Bytes) :
    verify sha256 ⟨target, ((s, left) :: rest).map ProofHelper.ofStep, !left⟩ merklerootHash =
      .ok (checkByteEq (MerkleTree.climb (pairHash sha256) target ((s, left) :: rest)) merklerootHash) := by
  -- reading a helper back as a step gives the step
  have hid : ((fun helper : ProofHelper => (helper.h, helper.isLeaf)) ∘ ProofHelper.ofStep) = id := rfl
  rw [verify_eq sha256 List.map_cons, Bool.not_not, List.map_map, hid, List.map_id]
  rfl

/-! ## The pointers of a full layer -/

/-- In a layer of even length the left node of every pair is marked `isLeaf`. -/
theorem isLeaf_layerNode {count j : Nat} (heven : count % 2 = 0) (hj : j < count) (inputs : Bool)
    (offset : Nat) (h : Bytes) : (layerNode inputs offset count j h).isLeaf = decide (j % 2 = 0) :=
  decide_eq_decide.mpr ⟨fun hl => hl.1, fun hl => ⟨hl, Or.inr (by omega)⟩⟩

/-- In a layer of even length every node points at its neighbour. -/
theorem getSibling_layerNode (nodes : List Node) {count j : Nat} (heven : count % 2 = 0) (hj : j < count)
    (inputs : Bool) (offset : Nat) (h : Bytes) :
    getSibling nodes (layerNode inputs offset count j h) = nodes[offset + MerkleTree.buddy j]? := by
  unfold getSibling layerNode MerkleTree.buddy
  by_cases hodd : j % 2 = 1
  · -- the right node of a pair points left
    rw [if_pos hodd, if_neg (show ¬ (j % 2 = 0 ∧ j + 1 < count) by omega), if_neg (by omega)]
    dsimp only
    rw [show offset + j - 1 = offset + (j - 1) by omega]
  · rw [if_neg hodd, if_pos (show j % 2 = 0 ∧ j + 1 < count by omega), if_pos (by omega)]
    dsimp only
    rw [Nat.add_assoc]

/-! ## A tree over `2 ^ k` inputs -/

/-- Layer `m` of the hash tree over `input`. -/
def level (input : List Bytes) (m : Nat) : List Bytes :=
  (MerkleTree.up (pairHash sha256) (loneHash sha256))^[m] input

/-- The layers `0` to `k` of the hash tree over `input`. -/
def levels (input : List Bytes) (k : Nat) : List (List Bytes) := (List.range (k + 1)).map (level sha256 input)

/-- `tree.Nodes` of a tree over `2 ^ k` inputs, `k ≥ 1`. -/
def completeNodes (input : List Bytes) (k : Nat) : List Node := layout true 0 (levels sha256 input k)

/-- Where layer `m` starts in `completeNodes`. -/
def layerStart (input : List Bytes) (k m : Nat) : Nat := (((levels sha256 input k).take m).map List.length).sum

/-- Node `j` of layer `m` of `completeNodes`. -/
def nodeAt (input : List Bytes) (k m j : Nat) : Node :=
  layerNode (m == 0) (layerStart sha256 input k m) (level sha256 input m).length j
    ((level sha256 input m).getD j default)

@[simp] theorem level_zero (input : List Bytes) : level sha256 input 0 = input := rfl

theorem level_succ (input : List Bytes) (m : Nat) :
    level sha256 input (m + 1) = MerkleTree.up (pairHash sha256) (loneHash sha256) (level sha256 input m) :=
  Function.iterate_succ_apply' _ _ _

section Layers

variable {input : List Bytes} {k : Nat}

theorem length_level (hk : input.length = 2 ^ k) {m : Nat} (hm : m ≤ k) :
    (level sha256 input m).length = 2 ^ (k - m) :=
  MerkleTree.length_iterate_up _ _ hk hm

theorem even_length_level (hk : input.length = 2 ^ k) {m : Nat} (hm : m < k) :
    (level sha256 input m).length % 2 = 0 := by
  obtain ⟨e, he⟩ : ∃ e, k - m = e + 1 := ⟨k - m - 1, by omega⟩
  rw [length_level sha256 hk (Nat.le_of_lt hm), he, Nat.pow_succ]
  omega

/-- The parent of node `j` is node `j / 2` of the layer above. -/
theorem half_lt_length_level (hk : input.length = 2 ^ k) {m j : Nat} (hm : m < k)
    (hj : j < (level sha256 input m).length) : j / 2 < (level sha256 input (m + 1)).length := by
  obtain ⟨e, he⟩ : ∃ e, k - m = e + 1 := ⟨k - m - 1, by omega⟩
  rw [length_level sha256 hk (Nat.le_of_lt hm), he, Nat.pow_succ] at hj
  rw [length_level sha256 hk hm, show k - (m + 1) = e by omega]
  omega

@[simp] theorem layerStart_zero (input : List Bytes) (k : Nat) : layerStart sha256 input k 0 = 0 := by
  simp [layerStart]

theorem layerStart_succ (input : List Bytes) {k m : Nat} (hm : m ≤ k) :
    layerStart sha256 input k (m + 1) = layerStart sha256 input k m + (level sha256 input m).length := by
  have hget : (levels sha256 input k)[m]? = some (level sha256 input m) := by
    simp [levels, List.getElem?_range (show m < k + 1 by omega)]
  rw [layerStart, layerStart, List.take_add_one, hget, List.map_append, List.sum_append]
  simp

theorem layerStart_mono (input : List Bytes) (k : Nat) {m m' : Nat} (h : m ≤ m') :
    layerStart sha256 input k m ≤ layerStart sha256 input k m' := by
  obtain ⟨d, rfl⟩ := Nat.exists_eq_add_of_le h
  rw [layerStart, layerStart, List.take_add, List.map_append, List.sum_append]
  exact Nat.le_add_right _ _

/-- The root is the last node. -/
theorem length_completeNodes (hk : input.length = 2 ^ k) :
    (completeNodes sha256 input k).length = layerStart sha256 input k k + 1 := by
  have hall : (completeNodes sha256 input k).length = layerStart sha256 input k (k + 1) := by
    rw [completeNodes, length_layout, layerStart, List.take_of_length_le (by simp [levels])]
  rw [hall, layerStart_succ sha256 input (Nat.le_refl k), length_level sha256 hk (Nat.le_refl k), Nat.sub_self,
    Nat.pow_zero]

theorem getElem?_completeNodes {m j : Nat} (hm : m ≤ k) (hj : j < (level sha256 input m).length) :
    (completeNodes sha256 input k)[layerStart sha256 input k m + j]? = some (nodeAt sha256 input k m j) := by
  have hm' : m < (levels sha256 input k).length := by simp [levels]; omega
  have hls : (levels sha256 input k)[m] = level sha256 input m := by simp [levels]
  have hj' : j < (levels sha256 input k)[m].length := by rw [hls]; exact hj
  rw [completeNodes, layerStart, getElem?_layout _ true 0 hm' hj']
  simp [nodeAt, layerStart, levels, List.getD_eq_getElem?_getD, List.getElem?_eq_getElem hj]

/-! ### The pass of `GenerateProofFor` below the root -/

section Pass

variable {m j : Nat} (hk : input.length = 2 ^ k) (hm : m < k) (hj : j < (level sha256 input m).length)

include hk hm hj

theorem isLeaf_nodeAt : (nodeAt sha256 input k m j).isLeaf = decide (j % 2 = 0) :=
  isLeaf_layerNode (even_length_level sha256 hk hm) hj _ _ _

theorem getSibling_nodeAt :
    getSibling (completeNodes sha256 input k) (nodeAt sha256 input k m j) =
      some (nodeAt sha256 input k m (MerkleTree.buddy j)) := by
  unfold nodeAt
  rw [getSibling_layerNode _ (even_length_level sha256 hk hm) hj]
  exact getElem?_completeNodes sha256 (Nat.le_of_lt hm) (MerkleTree.buddy_lt (even_length_level sha256 hk hm) hj)

/-- A pass hashes node `j` with its neighbour into node `j / 2` of the layer above. -/
theorem parentHash_nodeAt :
    parentHash sha256 (completeNodes sha256 input k) (nodeAt sha256 input k m j) =
      .ok ((level sha256 input (m + 1)).getD (j / 2) default) := by
  rw [level_succ, ← MerkleTree.climb_step (pairHash sha256) (loneHash sha256) (even_length_level sha256 hk hm) hj,
    parentHash, isLeaf_nodeAt sha256 hk hm hj, getSibling_nodeAt sha256 hk hm hj]
  by_cases hodd : j % 2 = 1
  · -- a right node: its sibling is hashed on the left
    rw [if_neg (by simp; omega), if_pos (decide_eq_true hodd)]
    rfl
  · rw [if_pos (by simp; omega), if_neg (by simpa using hodd)]
    rfl

/-- The helper recorded at node `j` is its neighbour, on the left for a right node. -/
theorem helperFor_nodeAt (buf : Bytes) :
    helperFor (completeNodes sha256 input k) (nodeAt sha256 input k m j) buf =
      ProofHelper.ofStep ((level sha256 input m).getD (MerkleTree.buddy j) default, decide (j % 2 = 1)) := by
  rw [helperFor, getSibling_nodeAt sha256 hk hm hj]
  show ProofHelper.mk _ (nodeAt sha256 input k m (MerkleTree.buddy j)).isLeaf = _
  rw [isLeaf_nodeAt sha256 hk hm (MerkleTree.buddy_lt (even_length_level sha256 hk hm) hj)]
  exact congrArg (ProofHelper.mk _) (decide_eq_decide.mpr (MerkleTree.buddy_mod_two j))

end Pass

/-- `GetIndex` finds every node at its own position when no two nodes hold the same bytes. -/
theorem getIndex_nodeAt {T : Tree} (hT : T.nodes = completeNodes sha256 input k)
    (hnodup : (T.nodes.map Node.h).Nodup) {m j : Nat} (hm : m ≤ k) (hj : j < (level sha256 input m).length) :
    getIndex T ((level sha256 input m).getD j default) = layerStart sha256 input k m + j :=
  getIndex_of_nodup hnodup (n := nodeAt sha256 input k m j) (by rw [hT]; exact getElem?_completeNodes sha256 hm hj)

/-- From node `j` of a layer `m` below the root, the loop records the neighbours
along the path of node `j / 2` of the layer above, one a pass, and stops at the root. -/
theorem proofLoop_spec {T : Tree} (hk : input.length = 2 ^ k) (hT : T.nodes = completeNodes sha256 input k)
    (hnodup : (T.nodes.map Node.h).Nodup) :
    ∀ (passes : Nat) {m j : Nat} (acc : List ProofHelper), m < k → j < (level sha256 input m).length →
      proofLoop sha256 T passes (layerStart sha256 input k m + j) acc =
        .ok (acc ++ ((MerkleTree.path (pairHash sha256) (loneHash sha256) (k - (m + 1)) (level sha256 input (m + 1))
          (j / 2)).take passes).map ProofHelper.ofStep)
  | 0, _, _, acc, _, _ => by simp [proofLoop]
  | passes + 1, m, j, acc, hm, hj => by
    have hj2 := half_lt_length_level sha256 hk hm hj
    have hslice : ∀ {m' j' : Nat}, m' ≤ k → j' < (level sha256 input m').length →
        sliceAt (completeNodes sha256 input k) (layerStart sha256 input k m' + j') = .ok (nodeAt sha256 input k m' j') :=
      fun hm' hj' => by rw [sliceAt, getElem?_completeNodes sha256 hm' hj']
    rw [proofLoop, hT, hslice (Nat.le_of_lt hm) hj, except_ok_bind, parentHash_nodeAt sha256 hk hm hj, except_ok_bind]
    dsimp only
    rw [getIndex_nodeAt sha256 hT hnodup (show m + 1 ≤ k by omega) hj2, length_completeNodes sha256 hk]
    by_cases htop : m + 1 = k
    · -- node `j / 2` of layer `k` is the root, the last node
      subst htop
      have hroot : j / 2 = 0 := by
        rw [length_level sha256 hk (Nat.le_refl _), Nat.sub_self, Nat.pow_zero] at hj2
        omega
      rw [if_pos (by omega), hslice (Nat.le_refl _) hj2, except_ok_bind, Nat.sub_self]
      simp only [MerkleTree.path, List.take_nil, List.map_nil, List.append_nil]
      rfl
    · -- node `j / 2` has a neighbour; record it and go on from there
      have hm2 : m + 1 < k := by omega
      have hnext := layerStart_mono sha256 input k (show m + 2 ≤ k by omega)
      rw [layerStart_succ sha256 input (show m + 1 ≤ k by omega)] at hnext
      rw [if_neg (by omega), hslice (Nat.le_of_lt hm2) hj2, except_ok_bind, helperFor_nodeAt sha256 hk hm2 hj2,
        proofLoop_spec hk hT hnodup passes _ hm2 hj2, show k - (m + 1) = k - (m + 1 + 1) + 1 by omega,
        MerkleTree.path, List.take_succ_cons, List.map_cons, ← level_succ]
      simp

end Layers

/-! ## Proofs of the inputs of a tree over `2 ^ k` inputs -/

section Complete

variable {input : List Bytes} {k : Nat}

theorem nodes_constructTree (tree : Tree) (hk : input.length = 2 ^ (k + 1)) :
    (constructTree sha256 tree input).nodes = completeNodes sha256 input (k + 1) := by
  rw [constructTree_eq, MerkleTree.above_of_length_eq_pow (pairHash sha256) (loneHash sha256) hk]
  show layout true 0 _ = layout true 0 _
  rw [levels, List.range_succ_eq_map (n := k + 1), List.map_cons, List.map_map]
  rfl

theorem root_constructTree (tree : Tree) (hk : input.length = 2 ^ (k + 1)) :
    (constructTree sha256 tree input).root.bytes = (level sha256 input (k + 1)).getD 0 default := by
  rw [constructTree_eq, MerkleTree.top_of_length_eq_pow (pairHash sha256) (loneHash sha256) hk]
  show List.headD (level sha256 input (k + 1)) [] = _
  cases level sha256 input (k + 1) <;> rfl

theorem inputs_constructTree (tree : Tree) (input : List Bytes) :
    (constructTree sha256 tree input).inputs = input.length := by
  rw [constructTree_eq]

/-- The proof of input `j`: its target is the input, its helpers the first five
steps of the input's path, the first of them with the target on its left for an
even `j`. -/
theorem generateProofFor_spec {T : Tree} (hk : input.length = 2 ^ (k + 1))
    (hT : T.nodes = completeNodes sha256 input (k + 1)) (hinputs : T.inputs = input.length)
    (hnodup : (T.nodes.map Node.h).Nodup) {j : Nat} (hj : j < input.length) :
    generateProofFor sha256 T (input.getD j default) =
      .ok (⟨input.getD j default,
        ((MerkleTree.path (pairHash sha256) (loneHash sha256) (k + 1) input j).take 5).map ProofHelper.ofStep,
        decide (j % 2 = 0)⟩, none) := by
  have hj0 : j < (level sha256 input 0).length := hj
  have hnode := getElem?_completeNodes sha256 (Nat.zero_le (k + 1)) hj0
  rw [layerStart_zero, Nat.zero_add] at hnode
  -- `IncludesInput` finds the target among the inputs
  have hlen : T.inputs ≤ T.nodes.length := by
    have h1 := layerStart_succ sha256 input (Nat.zero_le (k + 1))
    have h2 := layerStart_mono sha256 input (k + 1) (show 1 ≤ k + 1 by omega)
    rw [hinputs, hT, length_completeNodes sha256 hk]
    simp only [layerStart_zero, level_zero, Nat.zero_add] at h1
    omega
  have hfound : ((List.range T.inputs).any fun i => checkByteEq (T.nodes.getD i blankNode).h (input.getD j default))
      = true := by
    refine List.any_eq_true.mpr ⟨j, List.mem_range.mpr (by omega), ?_⟩
    rw [hT, List.getD_eq_getElem?_getD, hnode, Option.getD_some]
    exact checkByteEq_self _
  have hidx : getIndex T (input.getD j default) = j := by
    simpa using getIndex_nodeAt sha256 hT hnodup (Nat.zero_le (k + 1)) hj0
  have hloop := proofLoop_spec sha256 hk hT hnodup maxDepth
    [helperFor T.nodes (nodeAt sha256 input (k + 1) 0 j) []] (Nat.succ_pos k) hj0
  rw [layerStart_zero, Nat.zero_add, hT, helperFor_nodeAt sha256 hk (Nat.succ_pos k) hj0] at hloop
  rw [generateProofFor, includesInput_eq hlen, except_ok_bind, hfound]
  dsimp only
  rw [if_neg (by simp), hidx, sliceAt, hT, hnode]
  dsimp only
  rw [except_ok_bind, helperFor_nodeAt sha256 hk (Nat.succ_pos k) hj0, hloop, except_ok_bind,
    isLeaf_nodeAt sha256 hk (Nat.succ_pos k) hj0, MerkleTree.path, List.take_succ_cons, List.map_cons]
  simp [maxDepth, level_succ, pure, Except.pure]

/-- A tree over one input: the input, and its hash as the root above it. -/
theorem constructTree_singleton (tree : Tree) (x : Bytes) :
    constructTree sha256 tree [x] =
      ⟨⟨⟨(sha256 x).bytes, false, none, none⟩⟩, [⟨x, true, none, none⟩, ⟨(sha256 x).bytes, false, none, none⟩], 1⟩ := by
  have habove : MerkleTree.above (pairHash sha256) (loneHash sha256) [x] = [[loneHash sha256 x]] := by
    rw [MerkleTree.above, if_pos (by simp)]
    rfl
  have htop : MerkleTree.top (pairHash sha256) (loneHash sha256) [x] = [loneHash sha256 x] := by
    rw [MerkleTree.top, if_pos (by simp)]
    rfl
  rw [constructTree_eq, habove, htop]
  rfl

/-- The proof of the one input of a tree has one empty helper: the root is the
hash of the input alone. -/
theorem generateProofFor_singleton (tree : Tree) (x : Bytes)
    (hnodup : ((constructTree sha256 tree [x]).nodes.map Node.h).Nodup) :
    generateProofFor sha256 (constructTree sha256 tree [x]) x = .ok (⟨x, [⟨[], true⟩], true⟩, none) := by
  rw [constructTree_singleton] at hnodup ⊢
  have h0 := getIndex_of_nodup hnodup (p := 0) (n := ⟨x, true, none, none⟩) rfl
  have h1 := getIndex_of_nodup hnodup (p := 1) (n := ⟨(sha256 x).bytes, false, none, none⟩) rfl
  rw [generateProofFor, includesInput_eq (by simp)]
  simp [h0, h1, sliceAt, proofLoop, maxDepth, helperFor, getSibling, parentHash, pure, Except.pure]

/-- The round trip of `GenerateProofFor` and `Verify` on a tree over `2 ^ k`
inputs whose nodes hold pairwise different bytes: every input gets a proof,
without an error, and the proof verifies against the root exactly when
`k ≤ 5`. Above that the `MAXDEPTH` passes end below the root. -/
theorem verify_generateProofFor (tree : Tree) {input : List Bytes} {k : Nat} (hk : input.length = 2 ^ k)
    (hnodup : ((constructTree sha256 tree input).nodes.map Node.h).Nodup) {x : Bytes} (hx : x ∈ input) :
    ∃ proof, generateProofFor sha256 (constructTree sha256 tree input) x = .ok (proof, none) ∧
      verify sha256 proof (constructTree sha256 tree input).root.bytes = .ok (decide (k ≤ 5)) := by
  cases k with
  | zero =>
    -- one input: its hash is the root
    obtain ⟨y, rfl⟩ := List.length_eq_one_iff.mp hk
    obtain rfl := List.mem_singleton.mp hx
    refine ⟨_, generateProofFor_singleton sha256 tree x hnodup, ?_⟩
    rw [verify_eq sha256 (show (⟨x, [⟨[], true⟩], true⟩ : Proof).helpers = ⟨[], true⟩ :: [] from rfl),
      constructTree_singleton]
    simp [Root.bytes, pairHash]
  | succ k =>
    obtain ⟨j, hj, rfl⟩ := List.getElem_of_mem hx
    have hT := nodes_constructTree sha256 tree hk
    have hjk : j < 2 ^ (k + 1) := hk ▸ hj
    have hx' : input[j] = input.getD j default := by
      rw [List.getD_eq_getElem?_getD, List.getElem?_eq_getElem hj, Option.getD_some]
    have hleft : decide (j % 2 = 0) = !decide (j % 2 = 1) := by
      rcases Nat.mod_two_eq_zero_or_one j with h | h <;> simp [h]
    have hpath : (MerkleTree.path (pairHash sha256) (loneHash sha256) (k + 1) input j).take 5 =
        (input.getD (MerkleTree.buddy j) default, decide (j % 2 = 1)) ::
          (MerkleTree.path (pairHash sha256) (loneHash sha256) k
            (MerkleTree.up (pairHash sha256) (loneHash sha256) input) (j / 2)).take 4 := by
      rw [MerkleTree.path, List.take_succ_cons]
    rw [hx']
    refine ⟨_, generateProofFor_spec sha256 hk hT (inputs_constructTree sha256 tree input) hnodup hj, ?_⟩
    rw [hleft, hpath, verify_ofStep, ← hpath, root_constructTree sha256 tree hk]
    by_cases hsmall : k + 1 ≤ 5
    · -- the helpers are the whole path, which climbs to the root
      rw [List.take_of_length_le (by simp; omega), MerkleTree.climb_path _ _ hk hjk, decide_eq_true hsmall]
      exact congrArg Except.ok (checkByteEq_self _)
    · -- five steps reach layer 5, below the root, and its nodes hold other bytes
      rw [MerkleTree.climb_take_path _ _ (show 5 ≤ k + 1 by omega) hk hjk, decide_eq_false hsmall]
      refine congrArg Except.ok (Bool.eq_false_iff.mpr fun heq => ?_)
      have heq' : (level sha256 input 5).getD (j / 2 ^ 5) default = (level sha256 input (k + 1)).getD 0 default :=
        (checkByteEq_iff _ _).mp heq
      have h5 : j / 2 ^ 5 < (level sha256 input 5).length := by
        rw [length_level sha256 hk (show 5 ≤ k + 1 by omega)]
        refine Nat.div_lt_of_lt_mul ?_
        rw [← Nat.pow_add, show 5 + (k + 1 - 5) = k + 1 by omega]
        exact hjk
      have hroot : 0 < (level sha256 input (k + 1)).length := by
        rw [length_level sha256 hk (Nat.le_refl _)]
        exact Nat.two_pow_pos _
      have hidx5 := getIndex_nodeAt sha256 hT hnodup (show 5 ≤ k + 1 by omega) h5
      rw [heq', getIndex_nodeAt sha256 hT hnodup (Nat.le_refl _) hroot] at hidx5
      have h6 := layerStart_succ sha256 input (show 5 ≤ k + 1 by omega)
      have hmono := layerStart_mono sha256 input (k + 1) (show 5 + 1 ≤ k + 1 by omega)
      omega

/-- A stand-in for SHA-256 in a test: the sum of the bytes, after 31 zeros. -/
def sumHash (b : Bytes) : Digest := ⟨List.replicate 31 0 ++ [b.sum], by simp⟩

theorem verify_generateProofFor_four :
    ([[1], [2], [3], [4]] : List Bytes).length = 2 ^ 2 ∧
      ((constructTree sumHash ⟨⟨blankNode⟩, [], 0⟩ [[1], [2], [3], [4]]).nodes.map Node.h).Nodup ∧
      [3] ∈ ([[1], [2], [3], [4]] : List Bytes) ∧
      ∃ proof, generateProofFor sumHash (constructTree sumHash ⟨⟨blankNode⟩, [], 0⟩ [[1], [2], [3], [4]]) [3] =
          .ok (proof, none) ∧
        verify sumHash proof (constructTree sumHash ⟨⟨blankNode⟩, [], 0⟩ [[1], [2], [3], [4]]).root.bytes =
          .ok (decide (2 ≤ 5)) := by
  have hnodup : ((constructTree sumHash ⟨⟨blankNode⟩, [], 0⟩ [[1], [2], [3], [4]]).nodes.map Node.h).Nodup := by
    rw [nodes_constructTree sumHash _ (k := 1) rfl]
    decide +kernel
  exact ⟨rfl, hnodup, by decide, verify_generateProofFor sumHash _ rfl hnodup (by decide)⟩

end Complete

end Hash

end Merkle

end Nezha
