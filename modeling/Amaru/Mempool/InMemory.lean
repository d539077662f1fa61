import Amaru.Consensus.Header
import Mathlib.Data.List.Sort

/-!
# The mempool in memory

Transactions wait in the order in which they came, and are found by their id as well. **Both indexes hold
the same entries, and the bytes that are counted are those of the entries**: the structure carries this,
so that no sequence of operations can break it. Sequence numbers are never used twice.

The mempool has a limit on its bytes. A transaction that does not fit is refused (`insert`).
-/

namespace Amaru

open SortedMap Option Nat

/-- What the mempool reads of a transaction. -/
class HasTransactionId (Tx : Type*) where
  txId : Tx → ℕ
  /-- The length of the encoded transaction. -/
  cborLen : Tx → ℕ

export HasTransactionId (txId cborLen)

/-- A transaction with its place. -/
structure MempoolEntry (Tx : Type*) where
  seqNo : ℕ
  txId : ℕ
  tx : Tx
  txSize : ℕ
deriving DecidableEq, Repr

/-- The mempool. -/
structure InMemoryMempool (Tx : Type*) [HasTransactionId Tx] where
  maxBytes : ℕ
  nextSeq : ℕ
  currentBytes : ℕ
  /-- The tip that the transactions were last validated against. -/
  tip : Point
  entriesById : SortedMap ℕ ℕ
  entriesBySeq : SortedMap ℕ (MempoolEntry Tx)
  /-- Both indexes hold the same entries. -/
  byId_iff : ∀ {id seq}, entriesById.get? id = some seq ↔
    ∃ entry, entriesBySeq.get? seq = some entry ∧ entry.txId = id
  /-- An entry is what its transaction says. -/
  entry_eq : ∀ {seq entry}, entriesBySeq.get? seq = some entry →
    entry = ⟨seq, Amaru.txId entry.tx, entry.tx, cborLen entry.tx⟩
  seq_lt : ∀ {seq entry}, entriesBySeq.get? seq = some entry → seq < nextSeq
  bytes_eq : currentBytes = entriesBySeq.sumBy fun _ entry ↦ entry.txSize
  bytes_le : currentBytes ≤ maxBytes

/-- Why a transaction is refused. -/
inductive TxRejectReason
  | duplicate
  | mempoolFull
  /-- The ledger refuses it. -/
  | invalid
deriving DecidableEq, Repr

/-- What becomes of a transaction. -/
inductive TxInsertResult
  | accepted (txId seqNo : ℕ)
  | rejected (txId : ℕ) (reason : TxRejectReason)
deriving DecidableEq, Repr

namespace InMemoryMempool

variable {Tx : Type*} [HasTransactionId Tx] {ids : List ℕ} {id seq : ℕ}

/-- The mempool at start. -/
def new (maxBytes : ℕ) : InMemoryMempool Tx where
  maxBytes
  nextSeq := 1
  currentBytes := 0
  tip := .origin
  entriesById := ∅
  entriesBySeq := ∅
  byId_iff := ⟨nofun, nofun⟩
  entry_eq := nofun
  seq_lt := nofun
  bytes_eq := rfl
  bytes_le := zero_le _

variable (m : InMemoryMempool Tx)

/-! ### Reading -/

/-- The transactions, from the oldest. -/
def iter : List Tx := m.entriesBySeq.values.map MempoolEntry.tx

/-- Whether there is a transaction with an id. -/
def contains (id : ℕ) : Bool := m.entriesById.contains id

/-- The transactions, if they were validated against a tip. -/
def readAt (tip : Point) : Option (List Tx) := if m.tip = tip then some m.iter else none

variable {m}

theorem contains_iff : m.contains id = true ↔
    ∃ seq entry, m.entriesBySeq.get? seq = some entry ∧ entry.txId = id := by
  rw [contains, SortedMap.contains, isSome_iff_exists]
  exact exists_congr fun seq ↦ m.byId_iff

variable {tx : Tx}

theorem mem_iter : tx ∈ m.iter ↔
    ∃ seq, m.entriesBySeq.get? seq = some ⟨seq, txId tx, tx, cborLen tx⟩ := by
  rw [iter, values, List.map_map, List.mem_map]
  constructor
  · rintro ⟨⟨seq, entry⟩, hmem, rfl⟩
    have hget := mem_entries_iff.1 hmem
    exact ⟨seq, hget.trans (congrArg some (m.entry_eq hget))⟩
  · rintro ⟨seq, hget⟩
    exact ⟨(seq, _), mem_entries_iff.2 hget, rfl⟩

theorem contains_iff_mem_iter : m.contains id = true ↔ ∃ tx ∈ m.iter, txId tx = id := by
  rw [contains_iff]
  constructor
  · rintro ⟨seq, entry, hget, rfl⟩
    have hentry := m.entry_eq hget
    exact ⟨entry.tx, mem_iter.2 ⟨seq, hget.trans (congrArg some hentry)⟩,
      (congrArg MempoolEntry.txId hentry).symm⟩
  · rintro ⟨tx, hmem, rfl⟩
    obtain ⟨seq, hget⟩ := mem_iter.1 hmem
    exact ⟨seq, _, hget, rfl⟩

theorem get?_nextSeq : m.entriesBySeq.get? m.nextSeq = none := by
  by_contra hsome
  obtain ⟨entry, hget⟩ := ne_none_iff_exists'.1 hsome
  exact lt_irrefl _ (m.seq_lt hget)

/-! ### Writing -/

variable (m)

/-- Record the tip that the transactions were validated against. -/
def setTip (tip : Point) : InMemoryMempool Tx :=
  { m with
    tip
    byId_iff := m.byId_iff
    entry_eq := m.entry_eq
    seq_lt := m.seq_lt
    bytes_eq := m.bytes_eq
    bytes_le := m.bytes_le }

/-- Add a transaction that is not there and fits. -/
def push (tx : Tx) (hnew : m.contains (txId tx) = false)
    (hroom : m.currentBytes + cborLen tx ≤ m.maxBytes) : InMemoryMempool Tx where
  maxBytes := m.maxBytes
  nextSeq := m.nextSeq + 1
  currentBytes := m.currentBytes + cborLen tx
  tip := m.tip
  entriesById := m.entriesById.insert (txId tx) m.nextSeq
  entriesBySeq := m.entriesBySeq.insert m.nextSeq ⟨m.nextSeq, txId tx, tx, cborLen tx⟩
  byId_iff := by
    intro id seq
    rw [get?_insert, get?_insert]
    by_cases hid : id = txId tx
    · subst hid
      rw [if_pos rfl]
      constructor
      · intro heq
        rw [← some.inj heq, if_pos rfl]
        exact ⟨_, rfl, rfl⟩
      · rintro ⟨entry, hget, hentry⟩
        split_ifs at hget with hseq
        · rw [hseq]
        · have hold := contains_iff.2 ⟨seq, entry, hget, hentry⟩
          exact absurd (hold.symm.trans hnew) nofun
    · rw [if_neg hid, m.byId_iff]
      refine exists_congr fun entry ↦ and_congr_left fun hentry ↦ ?_
      split_ifs with hseq
      · rw [hseq, get?_nextSeq]
        refine ⟨nofun, fun heq ↦ ?_⟩
        cases heq
        exact absurd hentry.symm hid
      · exact Iff.rfl
  entry_eq := by
    intro seq entry hget
    rw [get?_insert] at hget
    split_ifs at hget with hseq
    · cases hget
      rw [hseq]
    · exact m.entry_eq hget
  seq_lt := by
    intro seq entry hget
    rw [get?_insert] at hget
    split_ifs at hget with hseq
    · exact hseq ▸ lt_succ_self _
    · exact (m.seq_lt hget).trans (lt_succ_self _)
  bytes_eq := by
    rw [sumBy_insert_of_none _ _ get?_nextSeq, m.bytes_eq]
    exact add_comm _ _
  bytes_le := hroom

/-- Add a transaction. -/
def insert (tx : Tx) : InMemoryMempool Tx × TxInsertResult :=
  if hnew : m.contains (txId tx) = true then (m, .rejected (txId tx) .duplicate)
  else if hroom : m.maxBytes < m.currentBytes + cborLen tx then
    (m, .rejected (txId tx) .mempoolFull)
  else (m.push tx (Bool.eq_false_iff.2 hnew) (not_lt.1 hroom), .accepted (txId tx) m.nextSeq)

/-- Forget a transaction and its bytes. -/
def removeOne (id : ℕ) : InMemoryMempool Tx :=
  match hid : m.entriesById.get? id with
  | none => m
  | some seq =>
    have hentry := m.byId_iff.1 hid
    { m with
      currentBytes := m.currentBytes - ((m.entriesBySeq.get? seq).map MempoolEntry.txSize).getD 0
      entriesById := m.entriesById.erase id
      entriesBySeq := m.entriesBySeq.erase seq
      byId_iff := by
        intro id' seq'
        obtain ⟨entry, hget, hid'⟩ := hentry
        rw [get?_erase, get?_erase]
        by_cases hseq : seq' = seq
        · subst hseq
          rw [if_pos rfl]
          refine ⟨fun h ↦ ?_, nofun⟩
          split_ifs at h with hne
          obtain ⟨entry', hget', hid''⟩ := m.byId_iff.1 h
          rw [hget] at hget'
          cases hget'
          exact absurd (hid''.symm.trans hid') hne
        · rw [if_neg hseq, ← m.byId_iff]
          split_ifs with heq
          · subst heq
            refine ⟨nofun, fun h ↦ ?_⟩
            exact absurd (some.inj (hid.symm.trans h)).symm hseq
          · exact Iff.rfl
      entry_eq := by
        intro seq' entry' h
        rw [get?_erase] at h
        split_ifs at h
        exact m.entry_eq h
      seq_lt := by
        intro seq' entry' h
        rw [get?_erase] at h
        split_ifs at h
        exact m.seq_lt h
      bytes_eq := by
        obtain ⟨entry, hget, -⟩ := hentry
        have hsum := sumBy_erase (fun _ entry ↦ MempoolEntry.txSize entry) hget
        rw [hget, m.bytes_eq]
        simp only [map_some, getD_some]
        omega
      bytes_le := (sub_le _ _).trans m.bytes_le }

/-- Forget transactions. -/
def remove (ids : List ℕ) : InMemoryMempool Tx := ids.foldl removeOne m

variable {m} {entry : MempoolEntry Tx}

theorem get?_removeOne :
    (m.removeOne id).entriesBySeq.get? seq = some entry ↔
      m.entriesBySeq.get? seq = some entry ∧ entry.txId ≠ id := by
  rw [removeOne]
  split
  · rename_i hnone
    refine ⟨fun hget ↦ ⟨hget, ?_⟩, And.left⟩
    rintro rfl
    rw [m.byId_iff.2 ⟨entry, hget, rfl⟩] at hnone
    cases hnone
  · rename_i seq' hsome
    obtain ⟨entry', hget', hid⟩ := m.byId_iff.1 hsome
    rw [get?_erase]
    split_ifs with heq
    · subst heq
      refine ⟨nofun, fun ⟨hget, hne⟩ ↦ ?_⟩
      rw [hget'] at hget
      cases hget
      exact absurd hid hne
    · refine ⟨fun hget ↦ ⟨hget, fun hid' ↦ heq ?_⟩, And.left⟩
      have hseq := m.byId_iff.2 ⟨entry, hget, hid'⟩
      exact some.inj (hseq.symm.trans hsome)

/-- **What is left after removing** are the entries with other ids. -/
theorem get?_remove :
    (m.remove ids).entriesBySeq.get? seq = some entry ↔
      m.entriesBySeq.get? seq = some entry ∧ entry.txId ∉ ids := by
  induction ids generalizing m with
  | nil => simp [remove]
  | cons id ids ih =>
    rw [remove, List.foldl_cons]
    refine ih.trans ?_
    rw [get?_removeOne, List.mem_cons, not_or, and_assoc]

theorem mem_iter_remove : tx ∈ (m.remove ids).iter ↔ tx ∈ m.iter ∧ txId tx ∉ ids := by
  simp only [mem_iter, get?_remove, exists_and_right]

/-- **The transactions stay as they are** exactly if none of those that are removed was there. -/
theorem iter_remove_eq_iff :
    (m.remove ids).iter = m.iter ↔ ∀ id ∈ ids, m.contains id = false := by
  constructor
  · intro heq id hid
    by_contra hcontains
    obtain ⟨tx, hmem, rfl⟩ := contains_iff_mem_iter.1 (Bool.eq_true_of_not_eq_false hcontains)
    exact (mem_iter_remove.1 (heq ▸ hmem)).2 hid
  · intro hnone
    have hmap : (m.remove ids).entriesBySeq = m.entriesBySeq := by
      refine ext_get? fun seq ↦ ext fun entry ↦ get?_remove.trans (and_iff_left_of_imp ?_)
      intro hget hid
      have hold := contains_iff.2 ⟨seq, entry, hget, rfl⟩
      exact absurd (hold.symm.trans (hnone _ hid)) nofun
    rw [iter, iter, hmap]

/-! ### The mempool is a queue -/

/-- What is done to the mempool. -/
inductive Operation (Tx : Type*)
  | insert (tx : Tx)
  | remove (ids : List ℕ)
  | setTip (tip : Point)

/-- Carry out one operation. -/
def carryOut (m : InMemoryMempool Tx) : Operation Tx → InMemoryMempool Tx
  | .insert tx => (m.insert tx).1
  | .remove ids => m.remove ids
  | .setTip tip => m.setTip tip

/-- **A bounded queue**: a transaction that is not there and fits comes last. -/
def enqueue (maxBytes : ℕ) (queue : List Tx) : Operation Tx → List Tx
  | .insert tx =>
    if (∃ old ∈ queue, txId old = txId tx) ∨ maxBytes < (queue.map cborLen).sum + cborLen tx then queue
    else queue ++ [tx]
  | .remove ids => queue.filter fun tx ↦ txId tx ∉ ids
  | .setTip _ => queue

theorem currentBytes_eq : m.currentBytes = (m.iter.map cborLen).sum := by
  rw [m.bytes_eq, sumBy, iter, values, List.map_map, List.map_map]
  congr 1
  refine List.map_congr_left fun e he ↦ ?_
  exact congrArg MempoolEntry.txSize (m.entry_eq (mem_entries_iff.1 he))

theorem iter_push {hnew : m.contains (txId tx) = false}
    {hroom : m.currentBytes + cborLen tx ≤ m.maxBytes} :
    (m.push tx hnew hroom).iter = m.iter ++ [tx] := by
  have hentries := insertEntry_of_lt (l := m.entriesBySeq.entries)
    (⟨m.nextSeq, txId tx, tx, cborLen tx⟩ : MempoolEntry Tx)
    fun e he ↦ m.seq_lt (mem_entries_iff.1 he)
  simp [iter, values, push, SortedMap.insert, hentries]

theorem iter_insert : (m.insert tx).1.iter = enqueue m.maxBytes m.iter (.insert tx) := by
  simp only [enqueue, ← contains_iff_mem_iter, ← currentBytes_eq, insert]
  by_cases hold : m.contains (txId tx) = true
  · simp [hold]
  by_cases hfull : m.maxBytes < m.currentBytes + cborLen tx
  · simp [hold, hfull]
  · simp [hold, hfull, iter_push]

theorem iter_remove : (m.remove ids).iter = m.iter.filter fun tx ↦ txId tx ∉ ids := by
  have hmap : (m.remove ids).entriesBySeq =
      m.entriesBySeq.filter fun _ entry ↦ entry.txId ∉ ids := by
    refine ext_get? fun seq ↦ ext fun entry ↦ get?_remove.trans ?_
    simp [filter_eq_some_iff]
  rw [iter, values, hmap, entries_filter, iter, values, List.map_map, List.map_map, List.filter_map]
  congr 1
  refine List.filter_congr fun e he ↦ ?_
  have hentry := congrArg MempoolEntry.txId (m.entry_eq (mem_entries_iff.1 he))
  simp [hentry]

theorem maxBytes_carryOut (operation : Operation Tx) :
    (m.carryOut operation).maxBytes = m.maxBytes := by
  rcases operation with tx | ids | tip
  · rw [carryOut, insert]
    split_ifs <;> rfl
  · refine ids.foldlRecOn (motive := fun (left : InMemoryMempool Tx) ↦ left.maxBytes = m.maxBytes) _ rfl
      fun left heq id _ ↦ ?_
    rw [removeOne]
    split <;> exact heq
  · rfl

/-- **Whatever is done to it, the mempool yields what the queue does.** -/
theorem mempool_is_bounded_queue (operations : List (Operation Tx)) :
    (operations.foldl carryOut m).iter = operations.foldl (enqueue m.maxBytes) m.iter := by
  induction operations generalizing m with
  | nil => rfl
  | cons operation operations ih =>
    have hstep : (m.carryOut operation).iter = enqueue m.maxBytes m.iter operation := by
      cases operation with
      | insert tx => exact iter_insert
      | remove ids => exact iter_remove
      | setTip tip => rfl
    rw [List.foldl_cons, ih, hstep, maxBytes_carryOut, List.foldl_cons]

end InMemoryMempool

end Amaru
