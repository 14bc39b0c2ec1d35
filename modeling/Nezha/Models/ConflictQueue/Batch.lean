import Nezha.Models.ConflictQueue.Graph

/-!
# Batches and the graph `CreateGraph` builds from them

A batch is the `[][]*RWNode` that `TestConflictQueue` receives. The callers
(`utils.ConCaptureRWSet`, `utils.CaptureRWSet`) build every transaction with
`CreateRWNode`, from read and write sets that are Go maps (so no key repeats)
and with the transaction's index as its ID. `BuiltBatch` collects what every
caller gives, together with non-emptiness, which the callers do not promise;
`Wellformed` adds that no key repeats within the reads or within the writes of
a transaction, which the callers reading Go maps give and the synthetic
generator of `utils/data.go`, drawing two read keys at random, does not; and
that no nil key meets an empty one, which holds as no caller passes a nil key.

`CreateGraph` on such a batch files transaction `i` under its ID with its own
node list, and each key's nodes, reads before writes, in batch order.
-/

namespace Nezha

/-- The ID `CreateGraph` files a transaction under: that of its first node. -/
def txId (tx : List RWNode) : Bytes := (tx.headD defaultNode).transInfo.id

/-- A transaction exactly as `CreateRWNode` returns it. -/
def BuiltTx (tx : List RWNode) : Prop :=
  ∃ id time rAddr rValue wAddr wValue, createRWNode id time rAddr rValue wAddr wValue = .ok tx

/-- Batches of non-empty transactions as `CreateRWNode` builds them, each with its own ID. -/
structure BuiltBatch (batch : List (List RWNode)) : Prop where
  built : ∀ tx ∈ batch, BuiltTx tx
  nonempty : ∀ tx ∈ batch, tx ≠ []
  ids_nodup : (batch.map txId).Nodup

/-- Such batches where a transaction reads a key once at most and writes it
once at most, and no nil key meets an empty one. -/
structure Wellformed (batch : List (List RWNode)) : Prop extends BuiltBatch batch where
  reads_nodup : ∀ tx ∈ batch, (readKeys tx).Nodup
  writes_nodup : ∀ tx ∈ batch, (writeKeys tx).Nodup
  keys_apart : NoNilEmptyClash batch

/-- A node as `CreateRWNode` makes it, with a non-nil key, value `"1"` and timestamp `0`. -/
def rwNode (id : Bytes) (label : Label) (key : Bytes) : RWNode :=
  ⟨⟨some key, some [49]⟩, ⟨id, 0⟩, label, 0, false⟩

/-- Every value a successful `mapM` returns comes from an element of the list. -/
theorem mem_of_mapM_except {ε α β : Type} {f : α → Except ε β} :
    ∀ {l : List α} {l' : List β}, l.mapM f = .ok l' → ∀ b ∈ l', ∃ a ∈ l, f a = .ok b := by
  intro l
  induction l with
  | nil =>
    intro l' h b hb
    have : l' = [] := by simpa [pure, Except.pure] using h.symm
    simp [this] at hb
  | cons a l ih =>
    intro l' h b hb
    rw [List.mapM_cons] at h
    cases hf : f a with
    | error e => simp [hf] at h
    | ok c =>
      cases hm : l.mapM f with
      | error e => simp [hf, hm] at h
      | ok cs =>
        have he : l' = c :: cs := by simpa [hf, hm, pure, Except.pure] using h.symm
        subst he
        rcases List.mem_cons.mp hb with rfl | hb
        · exact ⟨a, List.mem_cons_self, hf⟩
        · obtain ⟨a', ha', hfa⟩ := ih hm b hb
          exact ⟨a', List.mem_cons_of_mem a ha', hfa⟩

/-- Every node `CreateRWNode` returns carries the transaction's `TransInfo` and
is unnumbered and unassigned. -/
theorem createRWNode_fresh {id : Bytes} {time : UInt32} {rAddr rValue wAddr wValue : List (Option Bytes)}
    {tx : List RWNode} (h : createRWNode id time rAddr rValue wAddr wValue = .ok tx) :
    ∀ n ∈ tx, n.transInfo = ⟨id, time⟩ ∧ n.sequence = 0 ∧ n.isAssigned = false := by
  unfold createRWNode at h
  simp only [bind, Except.bind] at h
  split at h
  · simp at h
  · rename_i rNodes hr
    split at h
    · simp at h
    · rename_i wNodes hw
      obtain rfl : rNodes ++ wNodes = tx := by simpa [pure, Except.pure] using h
      intro n hn
      rcases List.mem_append.mp hn with hn | hn
      · obtain ⟨i, -, hi⟩ := mem_of_mapM_except hr n hn
        cases hv : sliceIndex rValue i with
        | error e => simp [hv] at hi
        | ok v =>
          simp only [hv, pure, Except.pure, Except.ok.injEq] at hi
          subst hi
          exact ⟨rfl, rfl, rfl⟩
      · obtain ⟨i, -, hi⟩ := mem_of_mapM_except hw n hn
        cases hv : sliceIndex wValue i with
        | error e => simp [hv] at hi
        | ok v =>
          simp only [hv, pure, Except.pure, Except.ok.injEq] at hi
          subst hi
          exact ⟨rfl, rfl, rfl⟩

/-- All nodes of a built transaction share one `TransInfo`. -/
theorem BuiltTx.transInfo_eq {tx : List RWNode} (h : BuiltTx tx) {n m : RWNode} (hn : n ∈ tx)
    (hm : m ∈ tx) : n.transInfo = m.transInfo := by
  obtain ⟨_, _, _, _, _, _, hc⟩ := h
  rw [(createRWNode_fresh hc n hn).1, (createRWNode_fresh hc m hm).1]

/-- A built transaction starts unnumbered and unassigned. -/
theorem BuiltTx.fresh {tx : List RWNode} (h : BuiltTx tx) {n : RWNode} (hn : n ∈ tx) :
    n.sequence = 0 ∧ n.isAssigned = false := by
  obtain ⟨_, _, _, _, _, _, hc⟩ := h
  exact (createRWNode_fresh hc n hn).2

/-- Every node of a batch as the callers build it starts unnumbered. -/
theorem BuiltBatch.unnumbered {batch : List (List RWNode)} (hw : BuiltBatch batch) :
    ∀ tx ∈ batch, ∀ n ∈ tx, n.sequence = 0 :=
  fun tx htx _ hn => ((hw.built tx htx).fresh hn).1

/-- Every node of a non-empty built transaction carries the transaction's ID. -/
theorem BuiltTx.id_eq {tx : List RWNode} (h : BuiltTx tx) {n : RWNode} (hn : n ∈ tx) :
    n.transInfo.id = txId tx := by
  cases tx with
  | nil => simp at hn
  | cons m rest =>
    simp only [txId, List.headD_cons]
    rw [h.transInfo_eq hn List.mem_cons_self]

end Nezha
