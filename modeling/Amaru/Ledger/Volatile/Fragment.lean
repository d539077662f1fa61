import Amaru.Ledger.Store.Columns
import Amaru.Ledger.Volatile.Diff

/-!
# Volatile fragments

What one block changes in the ledger, kept in memory until the block is stable. A fragment holds one
diff per table; a series of fragments is read through an aggregate of their diffs.

The source keeps the aggregate of a series up to date as fragments come and go. Here **an aggregate
is what folding the fragments of the series gives**, and a series is the list of its fragments, from
the oldest to the newest.
-/

namespace Amaru

open SortedMap SortedSet DiffBind
open List hiding contains

/-! ### Fragments -/

/-- A binding of an account: its pool, its delegate representative, its deposit. -/
abbrev AccountBind := Bind (PoolId × CertificatePointer) (DRep × CertificatePointer) ℕ

/-- A binding of a delegate representative, without its anchor. -/
abbrev DRepBind := Bind Unit Unit DRepRegistration

/-- A binding of a committee member: its status and its term. -/
abbrev CommitteeMemberBind := Bind ConstitutionalCommitteeMemberStatus ℕ Unit

/-- What a block changes. -/
structure VolatileFragment where
  utxo : DiffSet TransactionInput MemoizedTransactionOutput := ∅
  pools : DiffEpochReg PoolId (PoolParams × CertificatePointer × ℕ) := ∅
  accounts : DiffBind Credential (PoolId × CertificatePointer) (DRep × CertificatePointer) ℕ := ∅
  dreps : DiffBind Credential Anchor Unit DRepRegistration := ∅
  /-- The removed delegate representatives, with a pointer for those that existed before the
  block. -/
  drepsDeregistrations : SortedMap Credential (Option CertificatePointer) := ∅
  committee : DiffBind Credential ConstitutionalCommitteeMemberStatus ℕ Unit := ∅
  withdrawals : SortedSet Credential := ∅
  proposals : SortedMap ProposalId ProposalState := ∅
  votes : DiffSet BallotId Vote := ∅
  fees : ℕ := 0
  donations : ℕ := 0

/-- A fragment of a block, at its point. -/
structure AnchoredVolatileFragment where
  point : Point
  issuer : PoolId
  fragment : VolatileFragment

/-- Fragments, from the oldest to the newest. -/
abbrev VolatileSeries := List AnchoredVolatileFragment

/-! ### Indices -/

/-- The verdicts of the fragments of a series on each key, newest first. -/
structure IndexedBind (K : Type*) [LinearOrder K] (L R V : Type*) where
  index : SortedMap K (List (Existence (Bind L R V)))

namespace IndexedBind

variable {K : Type*} [LinearOrder K] {L L' R V : Type*}

instance : EmptyCollection (IndexedBind K L R V) := ⟨⟨∅⟩⟩

/-- Put a verdict in front. -/
def pushFront (verdict : Existence (Bind L R V)) (seq : Option (List (Existence (Bind L R V)))) :
    Option (List (Existence (Bind L R V))) :=
  some (verdict :: seq.getD [])

variable (ix : IndexedBind K L R V)

/-- Append the bindings of a newer fragment, transformed. -/
def extendWith (diff : DiffBind K L' R V) (f : Bind L' R V → Bind L R V) : IndexedBind K L R V where
  index := (ix.index.mergeWith diff.registered fun _ bind ↦ pushFront (.exists_ (f bind))).mergeWith
    diff.unregistered fun _ _ ↦ pushFront .gone

/-- Append the bindings of a newer fragment. -/
def extend (diff : DiffBind K L R V) : IndexedBind K L R V :=
  ix.extendWith diff id

/-- The verdicts on a key. -/
def history (k : K) : List (Existence (Bind L R V)) :=
  (ix.index.get? k).getD []

/-- The verdict on a key. -/
def get (k : K) : Existence (Bind L R V) := .fold (ix.history k)

theorem history_extendWith (diff : DiffBind K L' R V) (f : Bind L' R V → Bind L R V) (k : K) :
    (ix.extendWith diff f).history k = ((diff.get k).map f).conclusive ++ ix.history k := by
  rw [history, extendWith, get?_mergeWith, get?_mergeWith]
  cases hverdict : diff.get k with
  | exists_ bind =>
    have hreg := get_eq_exists_iff.1 hverdict
    have hun : diff.unregistered.get? k = none :=
      notMem_iff.1 fun h ↦ by rw [diff.disjoint k h] at hreg; cases hreg
    rw [hun, hreg]
    rfl
  | gone =>
    have hun := get_eq_gone_iff.1 hverdict
    rw [mem_iff.1 hun, diff.disjoint k hun]
    rfl
  | unknown =>
    obtain ⟨hreg, hun⟩ := get_eq_unknown_iff.1 hverdict
    rw [notMem_iff.1 hun, hreg]
    rfl

theorem history_extend (diff : DiffBind K L R V) (k : K) :
    (ix.extend diff).history k = (diff.get k).conclusive ++ ix.history k := by
  rw [extend, history_extendWith]
  cases diff.get k <;> rfl

/-- All the keys with a verdict. -/
def iter : List (K × Existence (Bind L R V)) :=
  ix.index.keys.map fun k ↦ (k, ix.get k)

/-- Where no verdicts are no entry, the index lists one verdict for each key that has some. -/
theorem map_snd_filter_iter {ix : IndexedBind K L R V} {k : K} (h : ix.index.get? k ≠ some []) :
    (ix.iter.filter (·.1 = k)).map Prod.snd = if ix.history k = [] then [] else [ix.get k] := by
  have hiter : ix.iter = ix.index.entries.map fun e ↦ (e.1, ix.get e.1) := by
    rw [iter, SortedMap.keys, map_map]
    rfl
  rw [hiter, map_snd_filter_map_entries (fun k _ ↦ ix.get k), history]
  rcases hindex : ix.index.get? k with - | verdicts
  · rfl
  · rw [hindex] at h
    simp [show verdicts ≠ [] from fun hnil ↦ h (hnil ▸ rfl)]

end IndexedBind

/-- Count how many fragments register or retire each key. -/
def IndexedEpochReg.extend {K V : Type*} [LinearOrder K] (index : SortedMap K ℕ)
    (diff : DiffEpochReg K V) : SortedMap K ℕ :=
  (diff.registered.keys ++ diff.unregistered.keys).foldl
    (fun index k ↦ index.alter k fun count ↦ some (count.getD 0 + 1)) index

theorem IndexedEpochReg.contains_foldl {K : Type*} [LinearOrder K] (k : K) :
    ∀ (keys : List K) (index : SortedMap K ℕ),
      (keys.foldl (fun index k ↦ index.alter k fun count ↦ some (count.getD 0 + 1)) index).contains k =
        (index.contains k || decide (k ∈ keys))
  | [], index => by simp
  | key :: rest, index => by
    rw [foldl_cons, contains_foldl k rest, contains, get?_alter, contains]
    by_cases h : k = key <;> simp [h]

/-! ### Aggregates -/

/-- The fold of a sequence of fragments. -/
structure VolatileAggregate where
  utxo : DiffSet TransactionInput MemoizedTransactionOutput := ∅
  pools : SortedMap PoolId ℕ := ∅
  accounts : IndexedBind Credential (PoolId × CertificatePointer) (DRep × CertificatePointer) ℕ := ∅
  dreps : IndexedBind Credential Unit Unit DRepRegistration := ∅
  committee : IndexedBind Credential ConstitutionalCommitteeMemberStatus ℕ Unit := ∅
  withdrawals : SortedSet Credential := ∅
  proposals : SortedMap ProposalId ProposalState := ∅
  fees : ℕ := 0
  donations : ℕ := 0

namespace VolatileAggregate

variable (a : VolatileAggregate)

/-- Fold a newer fragment into an aggregate. -/
def addFragment (f : VolatileFragment) : VolatileAggregate where
  utxo := a.utxo.extend f.utxo
  pools := IndexedEpochReg.extend a.pools f.pools
  accounts := a.accounts.extend f.accounts
  dreps := a.dreps.extendWith f.dreps (Bind.mapLeft fun _ ↦ ())
  committee := a.committee.extend f.committee
  withdrawals := a.withdrawals.insertAll f.withdrawals
  proposals := a.proposals.insertAll f.proposals
  fees := a.fees + f.fees
  donations := a.donations + f.donations

/-- Whether an account withdrew its rewards. -/
def hasWithdrawal (cred : Credential) : Bool :=
  decide (cred ∈ a.withdrawals)

/-- What the fragments say of an output. -/
def resolveInput (input : TransactionInput) : Existence MemoizedTransactionOutput :=
  a.utxo.get input

/-- Whether the fragments touch a pool. A retirement keeps the pool until the epoch boundary. -/
def resolvePool (pool : PoolId) : Bool := a.pools.contains pool

/-- What the fragments say of an account. -/
def resolveAccount (cred : Credential) : Existence AccountBind :=
  a.accounts.get cred

/-- What the fragments say of a delegate representative. -/
def resolveDRep (cred : Credential) : Existence DRepBind :=
  a.dreps.get cred

/-- What the fragments say of the committee members they touch. -/
def resolveCCMembers : List (Credential × Existence CommitteeMemberBind) :=
  a.committee.iter

/-- What the fragments say of a proposal. They never remove one. -/
def resolveProposal (id : ProposalId) : Existence ProposalState :=
  match a.proposals.get? id with
  | some state => .exists_ state
  | none => .unknown

/-- The cold credentials that a proposal would seat. -/
def candidatesOf (state : ProposalState) : List Credential :=
  match state.proposal.govAction with
  | .updateCommittee _ _ added _ => added.map Prod.fst
  | _ => []

/-- The candidates of the proposals of the fragments, each with the proposal that names it. -/
def resolveCommitteeCandidates : List (ProposalId × Credential) :=
  a.proposals.entries.flatMap fun (id, state) ↦ (candidatesOf state).map fun candidate ↦ (id, candidate)

end VolatileAggregate

namespace VolatileSeries

/-- The aggregate of a series. -/
def aggregate (series : VolatileSeries) : VolatileAggregate :=
  series.foldl (fun a f ↦ a.addFragment f.fragment) {}

theorem aggregate_concat (series : VolatileSeries) (block : AnchoredVolatileFragment) :
    aggregate (series ++ [block]) = (aggregate series).addFragment block.fragment := by
  rw [aggregate, foldl_append]
  rfl

/-- The point of the newest block, or else a point before the series. -/
def lastPoint (tip : Point) (series : VolatileSeries) : Point :=
  series.foldl (fun _ block ↦ block.point) tip

theorem lastPoint_append (tip : Point) (older newer : VolatileSeries) :
    lastPoint tip (older ++ newer) = newer.lastPoint (older.lastPoint tip) :=
  foldl_append

theorem lastPoint_eq (tip : Point) (series : VolatileSeries) :
    series.lastPoint tip = (series.getLast?.map (·.point)).getD tip := by
  rcases eq_nil_or_concat series with rfl | ⟨older, block, rfl⟩
  · rfl
  · rw [concat_eq_append, lastPoint_append, getLast?_concat]
    rfl

/-- Each block of the series is after the one before, and the first is after the tip. -/
def Follows (tip : Point) (series : VolatileSeries) : Prop :=
  List.IsChain Point.Before (tip :: series.map AnchoredVolatileFragment.point)

theorem follows_append {newer} : ∀ {tip} {older},
    Follows tip (older ++ newer) ↔ Follows tip older ∧ Follows (older.lastPoint tip) newer
  | _, [] => ⟨fun h ↦ ⟨List.IsChain.singleton _, h⟩, fun h ↦ h.2⟩
  | tip, block :: older => by
    have ih := @follows_append newer block.point older
    rw [Follows, Follows, cons_append, map_cons, map_cons, isChain_cons_cons,
      isChain_cons_cons, and_assoc]
    exact and_congr_right fun _ ↦ ih

theorem follows_singleton {tip block} :
    Follows tip [block] ↔ tip.Before block.point :=
  ⟨fun h ↦ (isChain_cons_cons.1 h).1, fun h ↦ isChain_cons_cons.2 ⟨h, List.IsChain.singleton _⟩⟩

theorem Follows.before_lastPoint : ∀ {tip} {series}, Follows tip series →
    series ≠ [] → tip.Before (series.lastPoint tip)
  | _, [], _, h => absurd rfl h
  | _, [_], h, _ => follows_singleton.1 h
  | tip, block :: next :: series, h, _ => by
    obtain ⟨hbefore, hrest⟩ := isChain_cons_cons.1 h
    have hnext : Follows block.point (next :: series) := hrest
    exact hbefore.trans (hnext.before_lastPoint (cons_ne_nil _ _))

variable (series : VolatileSeries)

/-- Whether a block of the series is at this point. -/
def hasPoint (point : Point) : Bool := series.any (·.point = point)

/-- Cut the series after the block at this point. -/
def rollbackTo (point : Point) : Option (VolatileSeries × VolatileSeries) :=
  (series.findIdx? (·.point = point)).map fun ix ↦ (series.take (ix + 1), series.drop (ix + 1))

/-- Cut the series after the block at this point, and put these blocks back. -/
def undoRollback (point : Point) (fragments : VolatileSeries) : Option VolatileSeries :=
  (series.findIdx? (·.point = point)).map fun ix ↦ series.take (ix + 1) ++ fragments

end VolatileSeries

end Amaru
