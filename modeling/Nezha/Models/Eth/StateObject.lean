import Nezha.Models.Eth.Interpreter
import Nezha.Models.Eth.RlpRaw
import Nezha.Core.UndoLog
import Mathlib.Data.List.TakeWhile

/-!
# Account storage (`core/state/state_object.go`, `journal.go`)

A `stateObject` keeps the storage of its account in three caches in front of
its storage trie. `SetState` writes to `dirtyStorage`, after journaling the
value it replaces; `finalise`, at the end of a transaction, moves the dirty
slots to `pendingStorage`; `updateTrie` writes the pending slots that differ
from `originStorage` into the trie and records them there. `GetCommittedState`
reads a slot from `pendingStorage`, else from `originStorage`, else from the
trie, and keeps what it read from the trie in `originStorage`; `GetState` reads
`dirtyStorage` first. The trie holds a slot as the RLP string of its bytes
without leading zeros, and a zero slot not at all.

The model holds the storage of one object: the storage entries the object puts
in the journal of its `StateDB`, in order, and a snapshot as their number at
the time. The trie is the map from keys to values it stores; its hashing and
its database are left out, and a read of it never fails. The fake storage of
`SetStorage`, which only the state override of `eth_call` sets, is left out.

The main results: over every run, the object refines a journaled store
(`UndoLog.Journaled`) whose current values are what `GetState` reads and whose
committed values are what `GetCommittedState` reads (`run_refines`); a revert
to a snapshot gives back every slot as it was (`revertToSnapshot_restores`);
and after `updateTrie` the trie alone holds every slot's value
(`updateTrie_persists`). What carries them is `Inv`: a slot written since the
trie was last written has its original value cached, so that the skip of
`updateTrie` for a value equal to the cached one never drops a write.
-/

namespace Nezha

/-! ## Slots in the trie -/

theorem Hash.ext {a b : Hash} (h : a.bytes = b.bytes) : a = b := by
  cases a
  cases b
  cases h
  rfl

/-- `common.TrimLeftZeroes(s)`. -/
def trimLeftZeroes (s : Bytes) : Bytes := s.dropWhile (· == 0)

/-- `value.SetBytes(b)` on the zero hash `value`: the last 32 bytes of `b`,
aligned right. -/
def hashSetBytes (b : Bytes) : Hash :=
  let b' := if b.length > 32 then b.drop (b.length - 32) else b
  ⟨List.replicate (32 - b'.length) 0 ++ b', by
    have hle : b'.length ≤ 32 := by
      simp only [b']
      split
      · simp only [List.length_drop]
        omega
      · omega
    simp only [List.length_append, List.length_replicate]
    omega⟩

/-- A slot's value as `updateTrie` puts it in the trie: `rlp.EncodeToBytes` of
its bytes without leading zeros, which cannot fail for a `[]byte`. -/
def encodeSlot (value : Hash) : Bytes := Rlp.encodeWritten (.bytes (trimLeftZeroes value.bytes))

/-- A slot's value as `GetCommittedState` reads it from the bytes `enc` the
trie holds, with the error `rlp.Split` returns, if any: no bytes are the zero
hash, and so are bytes that do not split. -/
def decodeSlot (enc : Bytes) : Hash × Option Rlp.DecodeError :=
  if enc.length > 0 then
    match Rlp.split enc with
    | .ok (_, content, _) => (hashSetBytes content, none)
    | .error err => (hashSetBytes [], some err)
  else (zeroHash, none)

/-- The value the trie holds for a slot. -/
def slotValue (trie : GoMap Hash Bytes) (key : Hash) : Hash := (decodeSlot (trie.findD key [])).1

theorem length_trimLeftZeroes_le (s : Bytes) : (trimLeftZeroes s).length ≤ s.length :=
  (List.dropWhile_suffix _).length_le

/-- The zeros `TrimLeftZeroes` takes off, put back in front, give the bytes back. -/
theorem replicate_append_trimLeftZeroes (s : Bytes) :
    List.replicate (s.length - (trimLeftZeroes s).length) 0 ++ trimLeftZeroes s = s := by
  have hsplit : s.takeWhile (· == 0) ++ trimLeftZeroes s = s := List.takeWhile_append_dropWhile
  have hzeros : s.takeWhile (· == 0) = List.replicate (s.length - (trimLeftZeroes s).length) 0 := by
    rw [List.eq_replicate_iff]
    refine ⟨?_, fun b hb => by simpa using List.mem_takeWhile_imp hb⟩
    have := congrArg List.length hsplit
    rw [List.length_append] at this
    omega
  rw [← hzeros, hsplit]

theorem hashSetBytes_of_le {b : Bytes} (h : b.length ≤ 32) :
    (hashSetBytes b).bytes = List.replicate (32 - b.length) 0 ++ b := by
  simp [hashSetBytes, Nat.not_lt.mpr h]

/-- A slot the trie holds is read back as the value written: trimming the
leading zeros, the RLP string, `rlp.Split` and `SetBytes` lose nothing. -/
theorem decodeSlot_encodeSlot (v : Hash) : decodeSlot (encodeSlot v) = (v, none) := by
  set t := trimLeftZeroes v.bytes with ht
  have hlen : t.length ≤ 32 := v.length_eq ▸ length_trimLeftZeroes_le v.bytes
  have henc : encodeSlot v = Rlp.encodeString t := rfl
  have hcan : Rlp.Canonical (Rlp.stringKind t) t := ⟨by omega, .inr rfl⟩
  have hsplit : Rlp.split (Rlp.encodeString t) = .ok (Rlp.stringKind t, t, []) :=
    Rlp.split_eq_ok_iff.mpr ⟨hcan, by rw [Rlp.item_stringKind, List.append_nil]⟩
  have hback : hashSetBytes t = v := by
    apply Hash.ext
    rw [hashSetBytes_of_le hlen, ← v.length_eq, ht, replicate_append_trimLeftZeroes]
  rw [henc, decodeSlot, if_pos (Rlp.length_encodeString_pos t), hsplit]
  dsimp only
  rw [hback]

/-- A slot the trie does not hold reads as zero. -/
theorem slotValue_of_findD {trie : GoMap Hash Bytes} {key : Hash} (h : trie.findD key [] = []) :
    slotValue trie key = zeroHash := by
  simp [slotValue, h, decodeSlot]

/-- The write of a slot to the trie in `updateTrie`: `TryDelete` for a zero
value, `TryUpdate` with its encoding for any other. -/
def writeSlot (trie : GoMap Hash Bytes) (key value : Hash) : GoMap Hash Bytes :=
  if value = zeroHash then trie.erase key else trie.insert key (encodeSlot value)

/-- What the trie holds after a write of a slot. -/
theorem slotValue_writeSlot (trie : GoMap Hash Bytes) (key value j : Hash) :
    slotValue (writeSlot trie key value) j = if j = key then value else slotValue trie j := by
  unfold writeSlot
  by_cases hj : j = key
  · subst hj
    split
    · rename_i hv
      rw [if_pos rfl, hv]
      exact slotValue_of_findD (by simp [GoMap.findD_erase])
    · rw [if_pos rfl, slotValue, GoMap.findD_insert, if_pos rfl, decodeSlot_encodeSlot]
  · rw [if_neg hj]
    split
    · simp only [slotValue, GoMap.findD_erase, if_neg hj]
    · simp only [slotValue, GoMap.findD_insert, if_neg hj]

/-! ## The object -/

/-- `storageChange`: the slot `SetState` wrote and the value it overwrote. -/
structure StorageChange where
  key : Hash
  prevalue : Hash
  deriving DecidableEq

/-- The storage of a `stateObject`. -/
structure StateObject where
  /-- the storage trie, as the map it stores -/
  trie : GoMap Hash Bytes
  originStorage : Storage
  pendingStorage : Storage
  dirtyStorage : Storage
  /-- the first error a read of the trie met -/
  dbErr : Option Rlp.DecodeError
  /-- the object's `storageChange` entries of the journal, oldest first -/
  journal : List StorageChange

/-- `newObject`: empty caches in front of the account's storage trie. -/
def newObject (trie : GoMap Hash Bytes) : StateObject := ⟨trie, .empty, .empty, .empty, none, []⟩

namespace StateObject

/-- `setError(err)`: the first error is the one kept. -/
def setError (s : StateObject) (err : Option Rlp.DecodeError) : StateObject :=
  if s.dbErr = none then { s with dbErr := err } else s

/-- `s.originStorage[key] = value`. -/
def cacheOrigin (s : StateObject) (key value : Hash) : StateObject :=
  { s with originStorage := s.originStorage.insert key value }

/-- `GetCommittedState(db, key)`, with the object after the read. -/
def getCommittedState (s : StateObject) (key : Hash) : Hash × StateObject :=
  match s.pendingStorage.get? key with
  | some value => (value, s)
  | none =>
    match s.originStorage.get? key with
    | some value => (value, s)
    | none =>
      let r := decodeSlot (s.trie.findD key [])
      (r.1, (s.setError r.2).cacheOrigin key r.1)

/-- `GetState(db, key)`, with the object after the read. -/
def getState (s : StateObject) (key : Hash) : Hash × StateObject :=
  match s.dirtyStorage.get? key with
  | some value => (value, s)
  | none => s.getCommittedState key

/-- `setState(key, value)`, the unexported writer that `SetState` and the revert
of a `storageChange` call. -/
def setDirty (s : StateObject) (key value : Hash) : StateObject :=
  { s with dirtyStorage := s.dirtyStorage.insert key value }

/-- `s.db.journal.append(ch)`, for an entry of this object. -/
def appendJournal (s : StateObject) (ch : StorageChange) : StateObject := { s with journal := s.journal ++ [ch] }

/-- `SetState(db, key, value)`. -/
def setState (s : StateObject) (key value : Hash) : StateObject :=
  let r := s.getState key
  if r.1 = value then r.2
  else (r.2.appendJournal ⟨key, r.1⟩).setDirty key value

/-- `RevertToSnapshot` back to the revision taken when the object had `snapshot`
entries in the journal: `journal.revert` reverts the entries after them, the
last first, and drops them. -/
def revertToSnapshot (s : StateObject) (snapshot : Nat) : StateObject :=
  { (s.journal.drop snapshot).reverse.foldl (fun s ch => s.setDirty ch.key ch.prevalue) s with
    journal := s.journal.take snapshot }

/-- `clearJournalAndRefund`, at the end of `StateDB.Finalise`. -/
def clearJournal (s : StateObject) : StateObject := { s with journal := [] }

/-- `finalise()`, with its `range` loop over `dirtyStorage` in the order `order`. -/
def finalise (s : StateObject) (order : List Hash) : StateObject :=
  { s with
    pendingStorage := order.foldl (fun p key => p.insert key (s.dirtyStorage.findD key zeroHash)) s.pendingStorage
    dirtyStorage := .empty }

/-- One pass of the loop of `updateTrie` over `pendingStorage`. The errors of
`TryDelete` and `TryUpdate` are nil, and `setError` of nil does nothing. -/
def updateSlot (s : StateObject) (key : Hash) : StateObject :=
  let value := s.pendingStorage.findD key zeroHash
  -- skip noop changes, persist actual changes
  if value = s.originStorage.findD key zeroHash then s
  else { s with originStorage := s.originStorage.insert key value, trie := writeSlot s.trie key value }

/-- `updateTrie(db)`, with the `range` loops over `dirtyStorage` and over
`pendingStorage` in the orders `dirtyOrder` and `pendingOrder`. -/
def updateTrie (s : StateObject) (dirtyOrder pendingOrder : List Hash) : StateObject :=
  let s := s.finalise dirtyOrder
  { pendingOrder.foldl updateSlot s with pendingStorage := .empty }

example : (((newObject .empty).setState zeroHash (bigToHash 1)).getState zeroHash).1 = bigToHash 1 := by
  decide

/-! ## What the object reads -/

/-- The value `GetCommittedState` reads for a slot. -/
def committedValue (s : StateObject) (key : Hash) : Hash :=
  ((s.pendingStorage.get? key).or (s.originStorage.get? key)).getD (slotValue s.trie key)

/-- The value `GetState` reads for a slot. -/
def currentValue (s : StateObject) (key : Hash) : Hash := (s.dirtyStorage.get? key).getD (s.committedValue key)

/-- The journaled store the object stands for: what `GetState` reads, what
`GetCommittedState` reads, and the journal. -/
def toJournaled (s : StateObject) : UndoLog.Journaled Hash Hash :=
  ⟨s.currentValue, s.committedValue, s.journal.map fun ch => (ch.key, ch.prevalue)⟩

/-- What keeps the caches in step with the trie. -/
structure Inv (s : StateObject) : Prop where
  /-- an original value in the cache is the trie's -/
  origin_eq : ∀ k v, s.originStorage.get? k = some v → slotValue s.trie k = v
  /-- a slot written since the trie was, or journaled, has its original value cached -/
  dirty_cached : ∀ k ∈ s.dirtyStorage.keys, k ∈ s.originStorage.keys
  pending_cached : ∀ k ∈ s.pendingStorage.keys, k ∈ s.originStorage.keys
  journal_cached : ∀ ch ∈ s.journal, ch.key ∈ s.originStorage.keys

theorem inv_newObject (trie : GoMap Hash Bytes) : Inv (newObject trie) where
  origin_eq := by simp [newObject]
  dirty_cached := by simp [newObject]
  pending_cached := by simp [newObject]
  journal_cached := by simp [newObject]

variable {s : StateObject}

@[simp] theorem setError_trie (err : Option Rlp.DecodeError) : (s.setError err).trie = s.trie := by
  unfold setError; split <;> rfl
@[simp] theorem setError_originStorage (err : Option Rlp.DecodeError) :
    (s.setError err).originStorage = s.originStorage := by
  unfold setError; split <;> rfl
@[simp] theorem setError_pendingStorage (err : Option Rlp.DecodeError) :
    (s.setError err).pendingStorage = s.pendingStorage := by
  unfold setError; split <;> rfl
@[simp] theorem setError_dirtyStorage (err : Option Rlp.DecodeError) :
    (s.setError err).dirtyStorage = s.dirtyStorage := by
  unfold setError; split <;> rfl
@[simp] theorem setError_journal (err : Option Rlp.DecodeError) : (s.setError err).journal = s.journal := by
  unfold setError; split <;> rfl

@[simp] theorem cacheOrigin_trie (k v : Hash) : (s.cacheOrigin k v).trie = s.trie := rfl
@[simp] theorem cacheOrigin_originStorage (k v : Hash) :
    (s.cacheOrigin k v).originStorage = s.originStorage.insert k v := rfl
@[simp] theorem cacheOrigin_pendingStorage (k v : Hash) :
    (s.cacheOrigin k v).pendingStorage = s.pendingStorage := rfl
@[simp] theorem cacheOrigin_dirtyStorage (k v : Hash) : (s.cacheOrigin k v).dirtyStorage = s.dirtyStorage := rfl
@[simp] theorem cacheOrigin_journal (k v : Hash) : (s.cacheOrigin k v).journal = s.journal := rfl

/-- `GetCommittedState` reads a slot from the pending or original values, else
from the trie, whose value it then caches as the original one. -/
theorem getCommittedState_cases (s : StateObject) (key : Hash) :
    (s.getCommittedState key).2 = s ∨
      (s.originStorage.get? key = none ∧
        (s.getCommittedState key).2 =
          (s.setError (decodeSlot (s.trie.findD key [])).2).cacheOrigin key (slotValue s.trie key)) := by
  unfold getCommittedState
  cases hp : s.pendingStorage.get? key with
  | some _ => exact .inl rfl
  | none =>
    cases ho : s.originStorage.get? key with
    | some _ => exact .inl rfl
    | none => exact .inr ⟨rfl, rfl⟩

theorem getCommittedState_fst (s : StateObject) (key : Hash) :
    (s.getCommittedState key).1 = s.committedValue key := by
  unfold getCommittedState committedValue
  cases hp : s.pendingStorage.get? key <;> cases ho : s.originStorage.get? key <;> simp [slotValue]

theorem getState_fst (s : StateObject) (key : Hash) : (s.getState key).1 = s.currentValue key := by
  unfold getState currentValue
  cases hd : s.dirtyStorage.get? key with
  | some _ => rfl
  | none => exact getCommittedState_fst s key

/-- Caching the trie's value of a slot as its original value changes no read. -/
theorem committedValue_load (key : Hash) (err : Option Rlp.DecodeError) (ho : s.originStorage.get? key = none) :
    ((s.setError err).cacheOrigin key (slotValue s.trie key)).committedValue = s.committedValue := by
  funext j
  simp only [committedValue, cacheOrigin_pendingStorage, cacheOrigin_originStorage, cacheOrigin_trie,
    setError_pendingStorage, setError_originStorage, setError_trie]
  by_cases hj : j = key
  · subst hj
    rw [GoMap.get?_insert_self, ho]
    cases s.pendingStorage.get? j <;> rfl
  · rw [GoMap.get?_insert_of_ne _ _ hj]

theorem toJournaled_load (key : Hash) (err : Option Rlp.DecodeError) (ho : s.originStorage.get? key = none) :
    toJournaled ((s.setError err).cacheOrigin key (slotValue s.trie key)) = toJournaled s := by
  have hc := committedValue_load key err ho
  have hcur : ((s.setError err).cacheOrigin key (slotValue s.trie key)).currentValue = s.currentValue := by
    funext j
    rw [currentValue, currentValue, hc, cacheOrigin_dirtyStorage, setError_dirtyStorage]
  simp only [toJournaled, hcur, hc, cacheOrigin_journal, setError_journal]

theorem Inv.load (hI : Inv s) (key : Hash) (err : Option Rlp.DecodeError) :
    Inv ((s.setError err).cacheOrigin key (slotValue s.trie key)) where
  origin_eq k v h := by
    simp only [cacheOrigin_originStorage, setError_originStorage, GoMap.get?_insert] at h
    simp only [cacheOrigin_trie, setError_trie]
    split at h
    · rename_i hk
      subst hk
      exact Option.some.inj h
    · exact hI.origin_eq k v h
  dirty_cached k hk := by
    simpa [GoMap.mem_keys_insert] using Or.inr (hI.dirty_cached k (by simpa using hk))
  pending_cached k hk := by
    simpa [GoMap.mem_keys_insert] using Or.inr (hI.pending_cached k (by simpa using hk))
  journal_cached ch hch := by
    simpa [GoMap.mem_keys_insert] using Or.inr (hI.journal_cached ch (by simpa using hch))

/-- A read changes no value and keeps the invariant. -/
theorem getCommittedState_snd (hI : Inv s) (key : Hash) :
    Inv (s.getCommittedState key).2 ∧ toJournaled (s.getCommittedState key).2 = toJournaled s := by
  rcases getCommittedState_cases s key with h | ⟨ho, h⟩
  · rw [h]
    exact ⟨hI, rfl⟩
  · rw [h]
    exact ⟨hI.load key _, toJournaled_load key _ ho⟩

theorem getState_snd (hI : Inv s) (key : Hash) :
    Inv (s.getState key).2 ∧ toJournaled (s.getState key).2 = toJournaled s := by
  unfold getState
  cases s.dirtyStorage.get? key with
  | some _ => exact ⟨hI, rfl⟩
  | none => exact getCommittedState_snd hI key

/-- After `GetState` reads a slot, its original value is cached. -/
theorem mem_originStorage_getState (hI : Inv s) (key : Hash) :
    key ∈ (s.getState key).2.originStorage.keys := by
  unfold getState
  cases hd : s.dirtyStorage.get? key with
  | some _ => exact hI.dirty_cached key ((s.dirtyStorage.mem_keys key).mpr (by simp [hd]))
  | none =>
    unfold getCommittedState
    cases hp : s.pendingStorage.get? key with
    | some _ => exact hI.pending_cached key ((s.pendingStorage.mem_keys key).mpr (by simp [hp]))
    | none =>
      cases ho : s.originStorage.get? key with
      | some _ => exact (s.originStorage.mem_keys key).mpr (by simp [ho])
      | none => simp [cacheOrigin, GoMap.mem_keys_insert]

/-! ## Writes -/

@[simp] theorem setDirty_trie (k v : Hash) : (s.setDirty k v).trie = s.trie := rfl
@[simp] theorem setDirty_originStorage (k v : Hash) : (s.setDirty k v).originStorage = s.originStorage := rfl
@[simp] theorem setDirty_pendingStorage (k v : Hash) : (s.setDirty k v).pendingStorage = s.pendingStorage := rfl
@[simp] theorem setDirty_journal (k v : Hash) : (s.setDirty k v).journal = s.journal := rfl

theorem committedValue_setDirty (k v : Hash) : (s.setDirty k v).committedValue = s.committedValue := rfl

@[simp] theorem setDirty_dirtyStorage (k v : Hash) :
    (s.setDirty k v).dirtyStorage = s.dirtyStorage.insert k v := rfl

theorem currentValue_setDirty (k v : Hash) :
    (s.setDirty k v).currentValue = Function.update s.currentValue k v := by
  funext j
  rw [currentValue, committedValue_setDirty, setDirty_dirtyStorage]
  by_cases hj : j = k
  · subst hj
    simp
  · rw [Function.update_of_ne hj, currentValue, GoMap.get?_insert_of_ne _ _ hj]

theorem Inv.setDirty (hI : Inv s) {k : Hash} (hk : k ∈ s.originStorage.keys) (v : Hash) :
    Inv (s.setDirty k v) where
  origin_eq := hI.origin_eq
  dirty_cached j hj := by
    rcases (GoMap.mem_keys_insert _ _ _ _).mp hj with rfl | hj
    · exact hk
    · exact hI.dirty_cached j hj
  pending_cached := hI.pending_cached
  journal_cached := hI.journal_cached

@[simp] theorem appendJournal_originStorage (ch : StorageChange) :
    (s.appendJournal ch).originStorage = s.originStorage := rfl
@[simp] theorem appendJournal_journal (ch : StorageChange) : (s.appendJournal ch).journal = s.journal ++ [ch] := rfl

theorem currentValue_appendJournal (ch : StorageChange) : (s.appendJournal ch).currentValue = s.currentValue := rfl

theorem committedValue_appendJournal (ch : StorageChange) :
    (s.appendJournal ch).committedValue = s.committedValue := rfl

theorem Inv.appendJournal (hI : Inv s) {ch : StorageChange} (hk : ch.key ∈ s.originStorage.keys) :
    Inv (s.appendJournal ch) where
  origin_eq := hI.origin_eq
  dirty_cached := hI.dirty_cached
  pending_cached := hI.pending_cached
  journal_cached c hc := by
    rcases List.mem_append.mp hc with hc | hc
    · exact hI.journal_cached c hc
    · rw [List.mem_singleton] at hc
      subst hc
      exact hk

/-- `SetState` is a journaled write. -/
theorem setState_spec (hI : Inv s) (key value : Hash) :
    Inv (s.setState key value) ∧ toJournaled (s.setState key value) = (toJournaled s).set key value := by
  obtain ⟨hI', hJ⟩ := getState_snd hI key
  have hcached := mem_originStorage_getState hI key
  have hprev := getState_fst s key
  dsimp only [setState]
  split
  · rename_i hsame
    refine ⟨hI', ?_⟩
    rw [hJ, UndoLog.Journaled.set, if_pos (by simpa [toJournaled, hprev] using hsame)]
  · rename_i hne
    -- the write is journaled with the value `GetState` read
    set r := s.getState key
    have hcur : r.2.currentValue = s.currentValue := congrArg UndoLog.Journaled.current hJ
    have hcom : r.2.committedValue = s.committedValue := congrArg UndoLog.Journaled.committed hJ
    have hlog : r.2.journal.map (fun ch => (ch.key, ch.prevalue)) = s.journal.map fun ch => (ch.key, ch.prevalue) :=
      congrArg UndoLog.Journaled.log hJ
    refine ⟨(hI'.appendJournal hcached).setDirty hcached value, ?_⟩
    rw [UndoLog.Journaled.set, if_neg (by simpa [toJournaled, hprev] using hne)]
    simp only [toJournaled, currentValue_setDirty, committedValue_setDirty, setDirty_journal,
      currentValue_appendJournal, committedValue_appendJournal, appendJournal_journal, List.map_append,
      List.map_cons, List.map_nil, hcur, hcom, hlog, hprev]

/-- Writing back the values of journal entries, the last first, undoes them. -/
theorem revertEntries_spec (hI : Inv s) :
    ∀ (l : List StorageChange), (∀ ch ∈ l, ch.key ∈ s.originStorage.keys) →
      let s' := l.reverse.foldl (fun s ch => s.setDirty ch.key ch.prevalue) s
      Inv s' ∧ s'.currentValue = UndoLog.undo (l.map fun ch => (ch.key, ch.prevalue)) s.currentValue ∧
        s'.committedValue = s.committedValue ∧ s'.journal = s.journal ∧ s'.originStorage = s.originStorage
  | [], _ => ⟨hI, rfl, rfl, rfl, rfl⟩
  | ch :: l, hl => by
    obtain ⟨hI', hcur, hcom, hjournal, horigin⟩ :=
      revertEntries_spec hI l fun c hc => hl c (List.mem_cons_of_mem ch hc)
    have hch : ch.key ∈ s.originStorage.keys := hl ch List.mem_cons_self
    simp only [List.reverse_cons, List.foldl_append, List.foldl_cons, List.foldl_nil, List.map_cons]
    refine ⟨hI'.setDirty (horigin ▸ hch) _, ?_, by rw [committedValue_setDirty, hcom],
      by rw [setDirty_journal, hjournal], by rw [setDirty_originStorage, horigin]⟩
    rw [currentValue_setDirty, hcur]
    rfl

/-- `RevertToSnapshot` is a revert of the journaled store. -/
theorem revertToSnapshot_spec (hI : Inv s) (snapshot : Nat) :
    Inv (s.revertToSnapshot snapshot) ∧
      toJournaled (s.revertToSnapshot snapshot) = (toJournaled s).revert snapshot := by
  obtain ⟨hI', hcur, hcom, -, horigin⟩ :=
    revertEntries_spec hI (s.journal.drop snapshot) fun ch hch => hI.journal_cached ch (List.mem_of_mem_drop hch)
  -- the reverted object is the one the writes leave, with the journal cut at the snapshot
  have hcur' : (s.revertToSnapshot snapshot).currentValue =
      ((s.journal.drop snapshot).reverse.foldl (fun s ch => s.setDirty ch.key ch.prevalue) s).currentValue := rfl
  have hcom' : (s.revertToSnapshot snapshot).committedValue =
      ((s.journal.drop snapshot).reverse.foldl (fun s ch => s.setDirty ch.key ch.prevalue) s).committedValue := rfl
  have horigin' : (s.revertToSnapshot snapshot).originStorage = s.originStorage := horigin
  have hjournal : (s.revertToSnapshot snapshot).journal = s.journal.take snapshot := rfl
  refine ⟨⟨hI'.origin_eq, hI'.dirty_cached, hI'.pending_cached, fun ch hch => ?_⟩, ?_⟩
  · rw [horigin']
    exact hI.journal_cached ch (List.mem_of_mem_take hch)
  · simp only [toJournaled, hcur', hcom', hcur, hcom, hjournal, UndoLog.Journaled.revert, List.map_drop,
      List.map_take]

theorem clearJournal_spec (hI : Inv s) :
    Inv s.clearJournal ∧ toJournaled s.clearJournal = (toJournaled s).clear :=
  ⟨⟨hI.origin_eq, hI.dirty_cached, hI.pending_cached, by simp [clearJournal]⟩, rfl⟩

/-! ## `finalise` -/

section Finalise

variable {order : List Hash}

/-- After `finalise`, the pending value of a slot is its dirty one, if any. -/
theorem get?_finalise_pendingStorage (horder : order.Perm s.dirtyStorage.keys) (key : Hash) :
    (s.finalise order).pendingStorage.get? key = (s.dirtyStorage.get? key).or (s.pendingStorage.get? key) := by
  have hnodup : (order.map fun x => x).Nodup := by simpa using horder.nodup_iff.mpr s.dirtyStorage.nodup
  by_cases hk : key ∈ order
  · obtain ⟨v, hv⟩ := GoMap.exists_get?_of_mem (horder.mem_iff.mp hk)
    have := GoMap.get?_foldl_insert (fun x => x) (fun key => s.dirtyStorage.findD key zeroHash) order
      s.pendingStorage hnodup key hk
    simp only [finalise]
    rw [this, hv, GoMap.findD_eq_of_get? hv]
    rfl
  · have hnone : s.dirtyStorage.get? key = none := by
      rw [← Option.not_isSome_iff_eq_none, ← s.dirtyStorage.mem_keys]
      exact fun h => hk (horder.mem_iff.mpr h)
    have := GoMap.get?_foldl_insert_of_not_mem (fun x => x) (fun key => s.dirtyStorage.findD key zeroHash) order
      s.pendingStorage (k := key) (by simpa using hk)
    simp only [finalise]
    rw [this, hnone]
    rfl

/-- `finalise` moves the dirty values to the pending ones: every value read stays,
and the committed values become the current ones. -/
theorem finalise_spec (hI : Inv s) (horder : order.Perm s.dirtyStorage.keys) :
    Inv (s.finalise order) ∧ toJournaled (s.finalise order) = (toJournaled s).commit := by
  have hpend := get?_finalise_pendingStorage horder
  have hcom : (s.finalise order).committedValue = s.currentValue := by
    funext key
    simp only [committedValue, currentValue, hpend]
    cases s.dirtyStorage.get? key <;> rfl
  refine ⟨⟨hI.origin_eq, by simp [finalise], ?_, hI.journal_cached⟩, ?_⟩
  · intro k hk
    rw [GoMap.mem_keys, hpend] at hk
    cases hd : s.dirtyStorage.get? k with
    | some _ => exact hI.dirty_cached k ((s.dirtyStorage.mem_keys k).mpr (by simp [hd]))
    | none =>
      rw [hd, Option.none_or] at hk
      exact hI.pending_cached k ((s.pendingStorage.mem_keys k).mpr hk)
  · have hcur : (s.finalise order).currentValue = s.currentValue := by
      funext key
      simp only [currentValue, finalise, GoMap.get?_empty, Option.getD_none]
      exact congrFun hcom key
    simp only [toJournaled, UndoLog.Journaled.commit, hcur, hcom]
    rfl

end Finalise

/-! ## `updateTrie` -/

section UpdateTrie

@[simp] theorem updateSlot_pendingStorage (key : Hash) : (s.updateSlot key).pendingStorage = s.pendingStorage := by
  dsimp only [updateSlot]; split <;> rfl
@[simp] theorem updateSlot_dirtyStorage (key : Hash) : (s.updateSlot key).dirtyStorage = s.dirtyStorage := by
  dsimp only [updateSlot]; split <;> rfl
@[simp] theorem updateSlot_journal (key : Hash) : (s.updateSlot key).journal = s.journal := by
  dsimp only [updateSlot]; split <;> rfl

theorem get?_updateSlot_originStorage_of_ne {key j : Hash} (h : j ≠ key) :
    (s.updateSlot key).originStorage.get? j = s.originStorage.get? j := by
  dsimp only [updateSlot]
  split
  · rfl
  · exact GoMap.get?_insert_of_ne _ _ h

theorem slotValue_updateSlot_of_ne {key j : Hash} (h : j ≠ key) :
    slotValue (s.updateSlot key).trie j = slotValue s.trie j := by
  dsimp only [updateSlot]
  split
  · rfl
  · rw [slotValue_writeSlot, if_neg h]

/-- A pass over a pending slot leaves its pending value cached as the original
one, which the trie holds: a skipped slot had it already. -/
theorem Inv.updateSlot (hI : Inv s) {key : Hash} (hk : key ∈ s.pendingStorage.keys) :
    Inv (s.updateSlot key) ∧ (s.updateSlot key).originStorage.get? key = some (s.pendingStorage.findD key zeroHash) := by
  dsimp only [StateObject.updateSlot]
  split
  · rename_i hsame
    -- the skip: the pending value is the cached original one, and the slot is cached
    obtain ⟨v, hv⟩ := GoMap.exists_get?_of_mem (hI.pending_cached key hk)
    refine ⟨hI, ?_⟩
    rw [hsame, GoMap.findD_eq_of_get? hv, hv]
  · refine ⟨⟨fun k v h => ?_, fun k hk' => ?_, fun k hk' => ?_, fun ch hch => ?_⟩, GoMap.get?_insert_self _ _ _⟩
    · rw [GoMap.get?_insert] at h
      rw [slotValue_writeSlot]
      split at h
      · rw [if_pos ‹_›]
        exact Option.some.inj h
      · rw [if_neg ‹_›]
        exact hI.origin_eq k v h
    · exact (GoMap.mem_keys_insert _ _ _ _).mpr (Or.inr (hI.dirty_cached k hk'))
    · exact (GoMap.mem_keys_insert _ _ _ _).mpr (Or.inr (hI.pending_cached k hk'))
    · exact (GoMap.mem_keys_insert _ _ _ _).mpr (Or.inr (hI.journal_cached ch hch))

/-- A pass over a pending slot changes no committed value: the pending one hides
what the pass caches and writes. -/
theorem committedValue_updateSlot {key : Hash} (hk : key ∈ s.pendingStorage.keys) :
    (s.updateSlot key).committedValue = s.committedValue := by
  funext j
  by_cases hj : j = key
  · subst hj
    obtain ⟨v, hv⟩ := GoMap.exists_get?_of_mem hk
    simp only [committedValue, updateSlot_pendingStorage, hv, Option.some_or, Option.getD_some]
  · simp only [committedValue, updateSlot_pendingStorage, get?_updateSlot_originStorage_of_ne hj,
      slotValue_updateSlot_of_ne hj]

/-- With no dirty or pending slot, an object reads its cached original values,
else the trie. -/
theorem currentValue_of_empty (hd : s.dirtyStorage = .empty) (hp : s.pendingStorage = .empty) (key : Hash) :
    s.currentValue key = (s.originStorage.get? key).getD (slotValue s.trie key) := by
  simp [currentValue, committedValue, hd, hp]

/-- What the loop of `updateTrie` keeps, from the object `s₀` it starts on. -/
structure Flushing (s₀ s : StateObject) : Prop where
  inv : Inv s
  pendingStorage : s.pendingStorage = s₀.pendingStorage
  dirtyStorage : s.dirtyStorage = s₀.dirtyStorage
  journal : s.journal = s₀.journal
  committedValue : s.committedValue = s₀.committedValue

theorem Flushing.updateSlot {s₀ : StateObject} (h : Flushing s₀ s) {key : Hash}
    (hk : key ∈ s₀.pendingStorage.keys) : Flushing s₀ (s.updateSlot key) := by
  have hk' : key ∈ s.pendingStorage.keys := h.pendingStorage ▸ hk
  exact ⟨(h.inv.updateSlot hk').1, by rw [updateSlot_pendingStorage, h.pendingStorage],
    by rw [updateSlot_dirtyStorage, h.dirtyStorage], by rw [updateSlot_journal, h.journal],
    by rw [committedValue_updateSlot hk', h.committedValue]⟩

variable {dirtyOrder pendingOrder : List Hash}

/-- After the loop of `updateTrie`, every pending slot has its pending value
cached as the original one. -/
theorem foldl_updateSlot_spec (hI : Inv s) (horder : ∀ k ∈ pendingOrder, k ∈ s.pendingStorage.keys) :
    Flushing s (pendingOrder.foldl updateSlot s) ∧
      ∀ k ∈ pendingOrder, (pendingOrder.foldl updateSlot s).originStorage.get? k =
        some (s.pendingStorage.findD k zeroHash) := by
  have hloop := foldl_invariant (P := Flushing s) pendingOrder (fun a x hx ha => ha.updateSlot (horder x hx)) s
    ⟨hI, rfl, rfl, rfl, rfl⟩
  refine ⟨hloop, ?_⟩
  -- the pass over a slot caches its value, and a later pass over any slot keeps it
  refine foldl_establishes_of_invariant (I := Flushing s)
    (P := fun k a => a.originStorage.get? k = some (s.pendingStorage.findD k zeroHash)) pendingOrder
    (fun a x hx ha => ha.updateSlot (horder x hx)) (fun a x hx ha => ?_) (fun a x hx y ha hy => ?_) s
    ⟨hI, rfl, rfl, rfl, rfl⟩
  · rw [← ha.pendingStorage]
    exact (ha.inv.updateSlot (ha.pendingStorage ▸ horder x hx)).2
  · by_cases hxy : y = x
    · subst hxy
      rw [← ha.pendingStorage]
      exact (ha.inv.updateSlot (ha.pendingStorage ▸ horder y hx)).2
    · rw [get?_updateSlot_originStorage_of_ne hxy, hy]

/-- `updateTrie` commits the current values and leaves the trie holding every
one of them. -/
theorem updateTrie_spec (hI : Inv s) (hdirty : dirtyOrder.Perm s.dirtyStorage.keys)
    (hpending : pendingOrder.Perm (s.finalise dirtyOrder).pendingStorage.keys) :
    Inv (s.updateTrie dirtyOrder pendingOrder) ∧
      toJournaled (s.updateTrie dirtyOrder pendingOrder) = (toJournaled s).commit ∧
      ∀ key, slotValue (s.updateTrie dirtyOrder pendingOrder).trie key = s.currentValue key := by
  obtain ⟨hI₀, hJ₀⟩ := finalise_spec hI hdirty
  set s₀ := s.finalise dirtyOrder
  obtain ⟨hF, hcached⟩ := foldl_updateSlot_spec hI₀ fun k hk => hpending.mem_iff.mp hk
  set F := pendingOrder.foldl updateSlot s₀
  -- the result is the object the loop leaves, with no pending slot
  have hfields : (s.updateTrie dirtyOrder pendingOrder).originStorage = F.originStorage ∧
      (s.updateTrie dirtyOrder pendingOrder).trie = F.trie ∧
      (s.updateTrie dirtyOrder pendingOrder).dirtyStorage = GoMap.empty ∧
      (s.updateTrie dirtyOrder pendingOrder).journal = s.journal := by
    refine ⟨rfl, rfl, ?_, hF.journal⟩
    show F.dirtyStorage = GoMap.empty
    rw [hF.dirtyStorage]
    rfl
  obtain ⟨horigin, htrie, hdirty', hjournal⟩ := hfields
  have hcom₀ : s₀.committedValue = s.currentValue := congrArg UndoLog.Journaled.committed hJ₀
  have hI' : Inv (s.updateTrie dirtyOrder pendingOrder) :=
    ⟨fun k v h => by rw [htrie]; exact hF.inv.origin_eq k v (horigin ▸ h),
      fun k hk => by simp [hdirty'] at hk, fun k hk => by simp [updateTrie] at hk,
      fun ch hch => by rw [horigin]; exact hF.inv.journal_cached ch (hF.journal ▸ hjournal ▸ hch)⟩
  -- every slot now reads what the cache of original values and the trie hold
  have hcur : ∀ key, (s.updateTrie dirtyOrder pendingOrder).currentValue key = s.currentValue key := by
    intro key
    rw [currentValue_of_empty hdirty' rfl, horigin, htrie, ← hcom₀]
    by_cases hk : key ∈ pendingOrder
    · obtain ⟨v, hv⟩ := GoMap.exists_get?_of_mem (hpending.mem_iff.mp hk)
      rw [hcached key hk, GoMap.findD_eq_of_get? hv]
      simp [committedValue, hv]
    · have hnone : s₀.pendingStorage.get? key = none := by
        rw [← Option.not_isSome_iff_eq_none, ← s₀.pendingStorage.mem_keys]
        exact fun h => hk (hpending.mem_iff.mpr h)
      rw [← hF.committedValue]
      simp [committedValue, hF.pendingStorage, hnone]
  have hcurrent : (s.updateTrie dirtyOrder pendingOrder).currentValue = s.currentValue := funext hcur
  have hcommitted : (s.updateTrie dirtyOrder pendingOrder).committedValue = s.currentValue := by
    rw [← hcurrent]
    funext key
    simp [currentValue, hdirty']
  refine ⟨hI', ?_, fun key => ?_⟩
  · simp only [toJournaled, UndoLog.Journaled.commit, hcurrent, hcommitted, hjournal]
  · -- with no dirty or pending slot, a cached original value is the trie's
    rw [← hcur key, currentValue_of_empty hdirty' rfl]
    cases ho : (s.updateTrie dirtyOrder pendingOrder).originStorage.get? key with
    | some v => rw [hI'.origin_eq key v ho, Option.getD_some]
    | none => rfl

end UpdateTrie

/-! ## Runs -/

/-- The calls a `StateDB` makes on the storage of one of its objects. -/
inductive Op where
  | getState (key : Hash)
  | getCommittedState (key : Hash)
  | setState (key value : Hash)
  | revertToSnapshot (snapshot : Nat)
  | finalise (order : List Hash)
  | clearJournal
  | updateTrie (dirtyOrder pendingOrder : List Hash)

namespace Op

/-- The object after a call. -/
def apply : Op → StateObject → StateObject
  | getState key, s => (s.getState key).2
  | getCommittedState key, s => (s.getCommittedState key).2
  | setState key value, s => s.setState key value
  | revertToSnapshot snapshot, s => s.revertToSnapshot snapshot
  | finalise order, s => s.finalise order
  | clearJournal, s => s.clearJournal
  | updateTrie dirtyOrder pendingOrder, s => s.updateTrie dirtyOrder pendingOrder

/-- The `range` loops of a call go over the keys of their maps, in some order. -/
def Valid : Op → StateObject → Prop
  | finalise order, s => order.Perm s.dirtyStorage.keys
  | updateTrie dirtyOrder pendingOrder, s =>
    dirtyOrder.Perm s.dirtyStorage.keys ∧ pendingOrder.Perm (s.finalise dirtyOrder).pendingStorage.keys
  | _, _ => True

instance decValid : (op : Op) → (s : StateObject) → Decidable (op.Valid s)
  | getState _, _ => isTrue trivial
  | getCommittedState _, _ => isTrue trivial
  | setState _ _, _ => isTrue trivial
  | revertToSnapshot _, _ => isTrue trivial
  | finalise order, s => inferInstanceAs (Decidable (order.Perm s.dirtyStorage.keys))
  | clearJournal, _ => isTrue trivial
  | updateTrie dirtyOrder pendingOrder, s =>
    inferInstanceAs (Decidable (dirtyOrder.Perm s.dirtyStorage.keys ∧
      pendingOrder.Perm (s.finalise dirtyOrder).pendingStorage.keys))

/-- What a call does to the journaled store: `finalise` and `updateTrie` commit. -/
def abs : Op → UndoLog.Journaled Hash Hash → UndoLog.Journaled Hash Hash
  | setState key value, st => st.set key value
  | revertToSnapshot snapshot, st => st.revert snapshot
  | finalise _, st => st.commit
  | clearJournal, st => st.clear
  | updateTrie _ _, st => st.commit
  | _, st => st

/-- The calls after which a revert to the snapshot taken at `n` entries is still
possible: no revert to before it, and no clearing of the journal. -/
def Keeps (n : Nat) : Op → Prop
  | revertToSnapshot snapshot => n ≤ snapshot
  | clearJournal => False
  | _ => True

/-- Every call refines its abstract effect and keeps the invariant. -/
theorem apply_spec {s : StateObject} (hI : Inv s) {op : Op} (hv : op.Valid s) :
    Inv (op.apply s) ∧ toJournaled (op.apply s) = op.abs (toJournaled s) := by
  cases op with
  | getState key => exact getState_snd hI key
  | getCommittedState key => exact getCommittedState_snd hI key
  | setState key value => exact setState_spec hI key value
  | revertToSnapshot snapshot => exact revertToSnapshot_spec hI snapshot
  | finalise order => exact finalise_spec hI hv
  | clearJournal => exact clearJournal_spec hI
  | updateTrie dirtyOrder pendingOrder =>
    obtain ⟨hI', hJ, -⟩ := updateTrie_spec hI hv.1 hv.2
    exact ⟨hI', hJ⟩

theorem abs_restores {n : Nat} {σ₀ : Hash → Hash} {st : UndoLog.Journaled Hash Hash}
    (h : UndoLog.Journaled.Restores n σ₀ st) {op : Op} (hk : op.Keeps n) :
    UndoLog.Journaled.Restores n σ₀ (op.abs st) := by
  cases op with
  | setState key value => exact h.set key value
  | revertToSnapshot snapshot => exact h.revert hk
  | finalise _ => exact h.commit
  | clearJournal => exact hk.elim
  | updateTrie _ _ => exact h.commit
  | getState _ => exact h
  | getCommittedState _ => exact h

end Op

/-- The object after a run of calls. -/
def run (s : StateObject) : List Op → StateObject
  | [] => s
  | op :: ops => (op.apply s).run ops

/-- A run whose every call is valid on the object it is made on. -/
def ValidRun : StateObject → List Op → Prop
  | _, [] => True
  | s, op :: ops => op.Valid s ∧ ValidRun (op.apply s) ops

instance decValidRun : (s : StateObject) → (ops : List Op) → Decidable (ValidRun s ops)
  | _, [] => isTrue trivial
  | s, op :: ops =>
    haveI := decValidRun (op.apply s) ops
    inferInstanceAs (Decidable (op.Valid s ∧ ValidRun (op.apply s) ops))

/-- The journaled store after the abstract effects of a run of calls. -/
def absRun (st : UndoLog.Journaled Hash Hash) : List Op → UndoLog.Journaled Hash Hash
  | [] => st
  | op :: ops => absRun (op.abs st) ops

theorem run_spec : ∀ (ops : List Op) {s : StateObject}, Inv s → ValidRun s ops →
    Inv (s.run ops) ∧ toJournaled (s.run ops) = absRun (toJournaled s) ops
  | [], _, hI, _ => ⟨hI, rfl⟩
  | op :: ops, s, hI, hv => by
    obtain ⟨hI', hJ⟩ := Op.apply_spec hI hv.1
    obtain ⟨hI'', hJ'⟩ := run_spec ops hI' hv.2
    refine ⟨hI'', ?_⟩
    rw [run, hJ', hJ]
    rfl

theorem absRun_restores {n : Nat} {σ₀ : Hash → Hash} :
    ∀ (ops : List Op) {st : UndoLog.Journaled Hash Hash}, UndoLog.Journaled.Restores n σ₀ st →
      (∀ op ∈ ops, op.Keeps n) → UndoLog.Journaled.Restores n σ₀ (absRun st ops)
  | [], _, h, _ => h
  | op :: ops, _, h, hk =>
    absRun_restores ops (Op.abs_restores h (hk op List.mem_cons_self)) fun o ho => hk o (List.mem_cons_of_mem op ho)

theorem toJournaled_newObject (trie : GoMap Hash Bytes) :
    toJournaled (newObject trie) = ⟨slotValue trie, slotValue trie, []⟩ := by
  have hcom : (newObject trie).committedValue = slotValue trie := by
    funext key
    simp [committedValue, newObject]
  have hcur : (newObject trie).currentValue = slotValue trie := by
    funext key
    rw [currentValue, hcom]
    rfl
  simp only [toJournaled, hcur, hcom]
  rfl

/-- Over every run of calls on an object opened on a trie, `GetState` reads the
current values and `GetCommittedState` the committed values of the journaled
store that starts from the trie's values and takes the calls' effects. -/
theorem run_refines (trie : GoMap Hash Bytes) (ops : List Op) (hv : ValidRun (newObject trie) ops) (key : Hash) :
    (((newObject trie).run ops).getState key).1 = (absRun ⟨slotValue trie, slotValue trie, []⟩ ops).current key ∧
      (((newObject trie).run ops).getCommittedState key).1 =
        (absRun ⟨slotValue trie, slotValue trie, []⟩ ops).committed key := by
  obtain ⟨-, hJ⟩ := run_spec ops (inv_newObject trie) hv
  rw [toJournaled_newObject] at hJ
  rw [getState_fst, getCommittedState_fst, ← hJ]
  exact ⟨rfl, rfl⟩

/-- A write to an empty storage, the end of its transaction and the write of
the trie, in the orders of the maps' keys. -/
theorem run_refines_write :
    ValidRun (newObject .empty) [.setState zeroHash (bigToHash 1), .finalise [zeroHash], .updateTrie [] [zeroHash]] ∧
      (((newObject .empty).run [.setState zeroHash (bigToHash 1), .finalise [zeroHash],
          .updateTrie [] [zeroHash]]).getState zeroHash).1 =
        (absRun ⟨slotValue .empty, slotValue .empty, []⟩ [.setState zeroHash (bigToHash 1), .finalise [zeroHash],
          .updateTrie [] [zeroHash]]).current zeroHash ∧
      (((newObject .empty).run [.setState zeroHash (bigToHash 1), .finalise [zeroHash],
          .updateTrie [] [zeroHash]]).getCommittedState zeroHash).1 =
        (absRun ⟨slotValue .empty, slotValue .empty, []⟩ [.setState zeroHash (bigToHash 1), .finalise [zeroHash],
          .updateTrie [] [zeroHash]]).committed zeroHash := by
  have hv : ValidRun (newObject .empty)
      [.setState zeroHash (bigToHash 1), .finalise [zeroHash], .updateTrie [] [zeroHash]] := by
    decide
  exact ⟨hv, run_refines .empty _ hv zeroHash⟩

/-- A revert to a snapshot, after any run of calls that neither reverts to before
it nor clears the journal, gives back every slot as it was when it was taken. -/
theorem revertToSnapshot_restores (hI : Inv s) (ops : List Op) (hv : ValidRun s ops)
    (hk : ∀ op ∈ ops, op.Keeps s.journal.length) (key : Hash) :
    (((s.run ops).revertToSnapshot s.journal.length).getState key).1 = (s.getState key).1 := by
  have hsnap := UndoLog.Journaled.restores_snapshot (toJournaled s)
  have hlen : (toJournaled s).log.length = s.journal.length := List.length_map _
  rw [hlen] at hsnap
  obtain ⟨hI', hJ⟩ := run_spec ops hI hv
  have hrestores := absRun_restores ops hsnap hk
  rw [← hJ] at hrestores
  have hrevert := (revertToSnapshot_spec hI' s.journal.length).2
  rw [getState_fst, getState_fst]
  calc ((s.run ops).revertToSnapshot s.journal.length).currentValue key
      = (toJournaled ((s.run ops).revertToSnapshot s.journal.length)).current key := rfl
    _ = ((toJournaled (s.run ops)).revert s.journal.length).current key := by rw [hrevert]
    _ = (toJournaled s).current key := by rw [hrestores.current_revert]
    _ = s.currentValue key := rfl

/-- A write after the snapshot of a fresh object is taken back by the revert. -/
theorem revertToSnapshot_restores_write :
    Inv (newObject .empty) ∧ ValidRun (newObject .empty) [.setState zeroHash (bigToHash 1)] ∧
      (∀ op ∈ [Op.setState zeroHash (bigToHash 1)], op.Keeps (newObject .empty).journal.length) ∧
      ((((newObject .empty).run [.setState zeroHash (bigToHash 1)]).revertToSnapshot
          (newObject .empty).journal.length).getState zeroHash).1 = ((newObject .empty).getState zeroHash).1 := by
  have hI := inv_newObject .empty
  have hv : ValidRun (newObject .empty) [.setState zeroHash (bigToHash 1)] := by decide
  have hk : ∀ op ∈ [Op.setState zeroHash (bigToHash 1)], op.Keeps (newObject .empty).journal.length := by
    simp [Op.Keeps]
  exact ⟨hI, hv, hk, revertToSnapshot_restores hI _ hv hk zeroHash⟩

/-- After `updateTrie`, an object opened afresh on the trie reads every slot as
the object did: the trie alone holds every current value. -/
theorem updateTrie_persists (hI : Inv s) {dirtyOrder pendingOrder : List Hash}
    (hdirty : dirtyOrder.Perm s.dirtyStorage.keys)
    (hpending : pendingOrder.Perm (s.finalise dirtyOrder).pendingStorage.keys) (key : Hash) :
    ((newObject (s.updateTrie dirtyOrder pendingOrder).trie).getState key).1 = (s.getState key).1 := by
  rw [getState_fst, getState_fst, ← (updateTrie_spec hI hdirty hpending).2.2 key]
  exact congrFun (congrArg UndoLog.Journaled.current (toJournaled_newObject _)) key

/-- A written slot of a fresh object, flushed to the trie, is read back from it. -/
theorem updateTrie_persists_write :
    Inv ((newObject .empty).setState zeroHash (bigToHash 1)) ∧
      [zeroHash].Perm ((newObject .empty).setState zeroHash (bigToHash 1)).dirtyStorage.keys ∧
      [zeroHash].Perm (((newObject .empty).setState zeroHash (bigToHash 1)).finalise [zeroHash]).pendingStorage.keys ∧
      ((newObject (((newObject .empty).setState zeroHash (bigToHash 1)).updateTrie [zeroHash] [zeroHash]).trie).getState
          zeroHash).1 = (((newObject .empty).setState zeroHash (bigToHash 1)).getState zeroHash).1 := by
  have hI := (setState_spec (inv_newObject .empty) zeroHash (bigToHash 1)).1
  have hdirty : [zeroHash].Perm ((newObject .empty).setState zeroHash (bigToHash 1)).dirtyStorage.keys := by decide
  have hpending :
      [zeroHash].Perm (((newObject .empty).setState zeroHash (bigToHash 1)).finalise [zeroHash]).pendingStorage.keys := by
    decide
  exact ⟨hI, hdirty, hpending, updateTrie_persists hI hdirty hpending zeroHash⟩

end StateObject

end Nezha
