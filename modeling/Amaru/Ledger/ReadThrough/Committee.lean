import Amaru.Ledger.Context.Preparation
import Amaru.Ledger.Governance.Voting
import Amaru.Ledger.ReadThrough.Flush

/-!
# The committee read through the volatile database

A committee member has a row in the store, statuses in the volatile blocks, and a term that only a
boundary changes. Someone who is only a candidate of a pending proposal has no row, and is read with an
empty one.

Writing a boundary forgets every member that holds no term after it: those it removes, everyone under
no confidence, and whoever sent a certificate ahead of an election that has not come. Reading **stops
at no such boundary**: a motion of no confidence and the pruning say nothing to the layers above, and a
removal only counts when it is the newest verdict of all. `MisreadMember` is the exact list of the
members for which that shows.
-/

namespace Amaru

open Existence SortedMap Preparation SortedSet VolatileDB VolatileSeries Store ProposalsForest Prod
  IndexedBind
open Option hiding or_assoc
open VolatileAggregate hiding resolveCCMembers resolveProposal
open List hiding contains map_map

variable {cred : Credential} {db : VolatileDB} {s s' : Store}
  {cold hot : SortedSet Credential} {eras : EraHistory} {series : VolatileSeries}

/-! ### Statuses in the volatile blocks -/

/-- The verdict of a block that gives a member this status, or that does not name it. -/
def statusVerdict : Option ConstitutionalCommitteeMemberStatus → Existence CommitteeMemberBind
  | some status => .exists_ { left := .set status }
  | none => .unknown

/-- What validation lets a block do to the committee: authorise a hot credential, or resign. -/
def VolatileFragment.BindsStatus (fragment : VolatileFragment) : Prop :=
  ∀ cred, ∃ status, fragment.committee.get cred = statusVerdict status

/-- The newest status that a series gives to a member. -/
def VolatileSeries.statusOf (series : VolatileSeries) (cred : Credential) :
    Option ConstitutionalCommitteeMemberStatus :=
  match series.aggregate.committee.get cred with
  | .exists_ bind => bind.left.intoOption none
  | _ => none

theorem foldBind_status {status : ConstitutionalCommitteeMemberStatus}
    {older : List (Existence CommitteeMemberBind)}
    (h : ∀ verdict ∈ older, ∃ status, verdict = statusVerdict (some status)) :
    foldBind { left := .set status } older = .exists_ { left := .set status } := by
  induction older with
  | nil => rfl
  | cons verdict older ih =>
    obtain ⟨⟨_, rfl⟩, holder⟩ := forall_mem_cons.1 h
    exact ih holder

/-- What the verdicts of a series on a member look like. -/
structure StatusHistory (series : VolatileSeries) (cred : Credential) : Prop where
  verdicts : ∀ verdict ∈ series.aggregate.committee.history cred,
    ∃ status, verdict = statusVerdict (some status)
  get_eq : series.aggregate.committee.get cred = statusVerdict (series.statusOf cred)
  index_ne : series.aggregate.committee.index.get? cred ≠ some []

theorem statusOf_concat {block : AnchoredVolatileFragment}
    {status : Option ConstitutionalCommitteeMemberStatus} (hhistory : StatusHistory series cred)
    (hblock : block.fragment.committee.get cred = statusVerdict status) :
    StatusHistory (series ++ [block]) cred ∧
      (series ++ [block]).statusOf cred = status.or (series.statusOf cred) := by
  have hcons : (aggregate (series ++ [block])).committee.history cred =
      (statusVerdict status).conclusive ++ series.aggregate.committee.history cred := by
    rw [aggregate_concat, ← hblock]
    exact history_extend _ _ _
  have hne : (aggregate (series ++ [block])).committee.index.get? cred ≠ some [] := by
    rw [aggregate_concat]
    change (SortedMap.mergeWith ..).get? cred ≠ _
    rw [get?_mergeWith, get?_mergeWith]
    cases block.fragment.committee.unregistered.get? cred <;>
      cases block.fragment.committee.registered.get? cred <;>
        simp [pushFront, hhistory.index_ne]
  have hget : (aggregate (series ++ [block])).committee.get cred =
      statusVerdict (status.or (series.statusOf cred)) := by
    rw [IndexedBind.get, hcons]
    rcases status with - | status
    · exact hhistory.get_eq
    · exact foldBind_status hhistory.verdicts
  have hstatus : (series ++ [block]).statusOf cred = status.or (series.statusOf cred) := by
    rw [statusOf, hget]
    cases status.or (series.statusOf cred) <;> rfl
  refine ⟨⟨fun verdict hverdict ↦ ?_, hstatus ▸ hget, hne⟩, hstatus⟩
  rw [hcons, mem_append] at hverdict
  rcases hverdict with hverdict | hverdict
  · rcases status with - | status
    · cases hverdict
    · exact ⟨status, mem_singleton.1 hverdict⟩
  · exact hhistory.verdicts verdict hverdict

theorem statusHistory_of_bindsStatus (cred : Credential) (series : VolatileSeries) :
    (∀ block ∈ series, block.fragment.BindsStatus) → StatusHistory series cred := by
  induction series using List.reverseRecOn with
  | nil =>
    refine fun _ ↦ ⟨fun verdict hverdict ↦ ?_, rfl, ?_⟩
    · exact absurd hverdict not_mem_nil
    · change none ≠ some []
      simp
  | append_singleton series block ih =>
    intro h
    rw [forall_mem_append] at h
    obtain ⟨status, hstatus⟩ := h.2 block (mem_singleton_self _) cred
    exact (statusOf_concat (ih h.1) hstatus).1

theorem map_snd_filter_resolveCCMembers (h : StatusHistory series cred) :
    (series.aggregate.resolveCCMembers.filter (·.1 = cred)).map snd =
      (statusVerdict (series.statusOf cred)).conclusive := by
  rw [VolatileAggregate.resolveCCMembers, map_snd_filter_iter h.index_ne, h.get_eq]
  split_ifs with hnil
  · have hget := h.get_eq
    rw [IndexedBind.get, hnil] at hget
    rw [← hget]
    rfl
  · rcases hstatus : series.statusOf cred with - | status
    · -- verdicts with a status fold to one with a status
      refine absurd (eq_nil_of_fold_eq_unknown (fun hmem ↦ ?_) ?_) hnil
      · obtain ⟨_, h⟩ := h.verdicts _ hmem
        cases h
      · exact h.get_eq.trans (by rw [hstatus]; rfl)
    · rfl

/-- The row of a member with a newer status, if there is one. -/
def withStatus (status : Option ConstitutionalCommitteeMemberStatus) (row : Option CCMemberRow) :
    Option CCMemberRow :=
  match status with
  | some status => some { status := some status, validUntil := row.bind (·.validUntil) }
  | none => row

/-- **What saving a series makes of the row of a member.** -/
theorem get?_ccMembers_of_applyBlocks {pp activity}
    (hnewer : Store.Newer s.tip series) (hbinds : ∀ block ∈ series, block.fragment.BindsStatus)
    (h : s.applyBlocks eras pp activity series = .ok s')
    (cred : Credential) : s'.ccMembers.get? cred =
      withStatus (series.statusOf cred) (s.ccMembers.get? cred) := by
  revert hbinds
  refine applyBlocks_invariant hnewer h (fun _ ↦ rfl) fun done before after block hdone hnew h hbinds ↦ ?_
  obtain ⟨_, _, _, -, -, -, rfl⟩ := exists_of_applyBlock h hnew
  rw [forall_mem_append] at hbinds
  obtain ⟨status, hstatus⟩ := hbinds.2 block (mem_singleton_self _) cred
  rw [(statusOf_concat (statusHistory_of_bindsStatus cred done hbinds.1) hstatus).2]
  change (ccMembersUpsert before.ccMembers _).get? cred = _
  rw [ccMembersUpsert, get?_mergeWith, hdone hbinds.1]
  rcases status with - | status
  · rw [(DiffBind.get_eq_unknown_iff.1 hstatus).1, none_or]
  · rw [DiffBind.get_eq_exists_iff.1 hstatus]
    cases done.statusOf cred <;> cases s.ccMembers.get? cred <;> rfl

/-! ### What a boundary does to a member -/

/-- What a boundary does to a committee member. -/
inductive CommitteeFate
  /-- No boundary is pending. -/
  | settled
  /-- The boundary does not name the member. -/
  | unnamed
  /-- The boundary puts the committee out of office. -/
  | erased
  | elected (validUntil : ℕ) ( alsoRemoved : Bool)
  | removed

/-- What the pending boundary does to a member. -/
def StateOverlay.fateOf (ov : StateOverlay) (cred : Credential) : CommitteeFate :=
  match ov.governanceUpdates with
  | none => .settled
  | some updates =>
    match updates.constitutionalCommittee with
    | none => .unnamed
    | some .noConfidence => .erased
    | some (.changeMembers removed added _) =>
      match added.get? cred with
      | some validUntil => .elected validUntil (decide (cred ∈ removed))
      | none => if cred ∈ removed then .removed else .unnamed

/-- The row of an elected member, from the one it had. -/
def electedRow (validUntil : ℕ) (row : Option CCMemberRow) : Option CCMemberRow :=
  some { status := row.bind (·.status), validUntil := some validUntil }

/-- The row of a member once the boundary is written. -/
def CommitteeFate.row : CommitteeFate → Option CCMemberRow → Option CCMemberRow
  | settled, row => row
  | unnamed, row => row.filter (·.validUntil.isSome)
  | erased, _ => none
  | elected validUntil _, row => electedRow validUntil row
  | removed, _ => none

theorem get?_updateCCMembers (rows : SortedMap Credential CCMemberRow) (removed : SortedSet Credential)
    (added : SortedMap Credential ℕ) (threshold : ℚ) (cred : Credential) :
    (updateCCMembers rows (some (.changeMembers removed added threshold))).get? cred =
      match added.get? cred with
      | some validUntil => electedRow validUntil (rows.get? cred)
      | none => if cred ∈ removed then none
        else (rows.get? cred).filter (·.validUntil.isSome) := by
  rw [updateCCMembers, get?_filter, changeCommitteeMembers, ccMembersUpsert, ccMembersUpsert,
    get?_mergeWith, get?_mergeWith, get?_map, get?_map]
  by_cases hremoved : cred ∈ removed
  · rw [mem_iff.1 hremoved, if_pos hremoved]
    cases added.get? cred <;> cases rows.get? cred <;> rfl
  · rw [notMem_iff.1 hremoved, if_neg hremoved]
    cases added.get? cred <;> cases rows.get? cred <;> rfl

theorem get?_ccMembers_of_crosses {ov} (h : Crosses ov s s') (cred : Credential) :
    s'.ccMembers.get? cred = (ov.fateOf cred).row (s.ccMembers.get? cred) := by
  rw [h.ccMembers_eq, StateOverlay.fateOf]
  rcases ov.governanceUpdates with - | updates
  · rfl
  dsimp only
  rcases updates.constitutionalCommittee with - | update
  · exact get?_filter _ _ _
  cases update with
  | noConfidence => rfl
  | changeMembers removed added threshold =>
    rw [get?_updateCCMembers]
    dsimp only
    rcases added.get? cred with - | validUntil
    · split_ifs <;> rfl
    · rfl

/-! ### The committee with an update pending -/

section Resolve

open ConstitutionalCommittee

variable (rows : SortedMap Credential CCMemberRow) (added : SortedMap Credential ℕ)

/-- Renewing the members is changing them in the store, and then reading those in office. -/
theorem renew_eq (removed : SortedSet Credential) (threshold : ℚ) {keep}
    (hkeep : ∀ cold row, rows.get? cold = some row →
      keep cold row = if cold ∈ removed then none else row.validUntil) :
    renew rows added keep =
      (updateCCMembers rows (some (.changeMembers removed added threshold))).filterMap fun _ row ↦
        row.validUntil.map fun validUntil ↦ (hotCredentialFromRow row, validUntil) := by
  -- the loop over the new members is a merge
  refine ext_get? fun cold ↦ (get?_mergeWith _ _ (fun _ validUntil _ ↦ some (none, validUntil)) cold).trans ?_
  rw [get?_filter, get?_filterMap, contains, get?_filterMap, get?_updateCCMembers]
  rcases added.get? cold with - | validUntil
  · rcases hrow : rows.get? cold with - | row
    · split_ifs <;> rfl
    dsimp only [bind_some]
    rw [hkeep cold row hrow]
    split_ifs
    · rfl
    · rcases h : row.validUntil with - | validUntil <;> simp [h, Option.filter]
  · rcases rows.get? cold with - | row <;> rfl

/-- **Resolving the committee with an update pending is resolving it once the update is written.** -/
theorem resolve_pending_eq_resolve_written {s : Store} (update : ConstitutionalCommitteeUpdate)
    (hrows : s.constitutionalCommittee = .noConfidence →
      ∀ cold row, s.ccMembers.get? cold = some row → row.validUntil = none) :
    resolve s.constitutionalCommittee s.ccMembers (some update) =
      resolve (s.updateConstitutionalCommittee (some update)).constitutionalCommittee
        (s.updateConstitutionalCommittee (some update)).ccMembers none := by
  cases update with
  | noConfidence => rfl
  | changeMembers removed added threshold =>
    -- in no confidence, no stored member has a term to keep
    rcases hstatus : s.constitutionalCommittee with - | current
    · refine congrArg (some ∘ ConstitutionalCommittee.mk threshold)
        (renew_eq _ _ _ threshold fun cold row hrow ↦ ?_)
      rw [hrows hstatus cold row hrow, ite_self]
    · exact congrArg (some ∘ ConstitutionalCommittee.mk threshold) (renew_eq _ _ _ threshold fun _ _ _ ↦ rfl)

/-- A store in no confidence, with a candidate that has authorised a hot credential. -/
def oneCandidate : Store :=
  { blankStore with
    ccMembers := .ofList [(.keyHash 1, { status := some (.delegatedToHotCredential (.keyHash 2)) })] }

/-- The candidate is elected by an update that removes it too. -/
def electCandidate : ConstitutionalCommitteeUpdate :=
  .changeMembers (.ofList [(.keyHash 1, ())]) (.ofList [(.keyHash 1, 50)]) 1

theorem resolve_pending_eq_resolve_written_candidate :
    resolve oneCandidate.constitutionalCommittee oneCandidate.ccMembers (some electCandidate) =
      resolve (oneCandidate.updateConstitutionalCommittee (some electCandidate)).constitutionalCommittee
        (oneCandidate.updateConstitutionalCommittee (some electCandidate)).ccMembers none ∧
    resolve oneCandidate.constitutionalCommittee oneCandidate.ccMembers (some electCandidate) =
      some ⟨1, .ofList [(.keyHash 1, some (.keyHash 2), 50)]⟩ := by
  refine ⟨resolve_pending_eq_resolve_written _ fun _ cold row hrow ↦ ?_, rfl⟩
  cases mem_singleton.1 (mem_entries_iff.2 hrow)
  rfl

end Resolve

/-- The verdicts of the pending boundary on a member. -/
def CommitteeFate.verdicts : CommitteeFate → List (Existence CommitteeMemberBind)
  | settled | unnamed | erased => []
  | elected validUntil alsoRemoved =>
    .exists_ { right := .set validUntil } :: if alsoRemoved then [.gone] else []
  | removed => [.gone]

theorem map_snd_filter_ccMembers (ov : StateOverlay) (cred : Credential) :
    (ov.ccMembers.filter (·.1 = cred)).map snd = (ov.fateOf cred).verdicts := by
  rw [StateOverlay.ccMembers, StateOverlay.committeeUpdate, StateOverlay.fateOf]
  rcases ov.governanceUpdates with - | updates
  · rfl
  dsimp only [bind_some]
  rcases updates.constitutionalCommittee with - | update
  · rfl
  cases update with
  | noConfidence => rfl
  | changeMembers removed added threshold =>
    have hkeys : removed.keys.map (fun cold ↦ (cold, (gone : Existence CommitteeMemberBind))) =
        removed.entries.map fun e ↦ (e.1, gone) := by
      rw [SortedMap.keys, List.map_map]
      rfl
    dsimp only
    rw [filter_append, map_append, hkeys,
      map_snd_filter_map_entries (fun _ validUntil ↦
        (exists_ { right := .set validUntil } : Existence CommitteeMemberBind)) added,
      map_snd_filter_map_entries (fun _ _ ↦ (gone : Existence CommitteeMemberBind)) removed]
    by_cases hremoved : cred ∈ removed
    · rw [mem_iff.1 hremoved]
      cases added.get? cred <;> simp [hremoved, CommitteeFate.verdicts]
    · rw [notMem_iff.1 hremoved]
      cases added.get? cred <;> simp [hremoved, CommitteeFate.verdicts]

/-! ### Candidates -/

/-- The verdict on a candidate: it may be named, and nothing else is known of it. -/
abbrev candidateVerdict : Existence CommitteeMemberBind := .exists_ {}

/-- The candidates of the proposals of the new epoch. -/
def VolatileDB.currentCandidates (db : VolatileDB) : List Credential :=
  db.current.aggregate.resolveCommitteeCandidates.map snd

/-- The candidates of the proposals of the closing epoch that the boundary does not prune. -/
def VolatileDB.drainingCandidates (db : VolatileDB) : List Credential :=
  db.draining.aggregate.resolveCommitteeCandidates.filterMap fun (id, cold) ↦
    if db.overlay.hasPrunedProposal id then none else some cold

theorem map_snd_filter_candidates (cred : Credential) : ∀ candidates : List Credential,
    ((candidates.map fun cold ↦ (cold, candidateVerdict)).filter (·.1 = cred)).map snd =
      List.replicate (candidates.count cred) candidateVerdict
  | [] => rfl
  | cold :: candidates => by
    have ih := map_snd_filter_candidates cred candidates
    by_cases h : cold = cred
    · simp [h, replicate_succ, ← ih]
    · simp [h, ← ih]

theorem foldBind_candidates {newer : CommitteeMemberBind} (h : newer.value = none)
    (older : List (Existence CommitteeMemberBind)) :
    ∀ n, foldBind newer (List.replicate n candidateVerdict ++ older) = foldBind newer older
  | 0 => rfl
  | n + 1 => by
    have hnewer : Bind.andThen {} newer = newer := by
      obtain ⟨left, right, value⟩ := newer
      obtain rfl : value = none := h
      cases left <;> cases right <;> rfl
    rw [replicate_succ, cons_append, foldBind, h, isNone_none, if_pos rfl, hnewer]
    exact foldBind_candidates h older n

/-! ### Reading a member -/

/-- The verdict of all the layers on a member. -/
def VolatileDB.memberVerdict (db : VolatileDB) (cred : Credential) : Existence CommitteeMemberBind :=
  (db.resolveCCMembers.get? cred).getD .unknown

theorem memberVerdict_eq (hcurrent : StatusHistory db.current cred)
    (hdraining : StatusHistory db.draining cred) :
    db.memberVerdict cred = fold
      ((statusVerdict (db.current.statusOf cred)).conclusive ++
        List.replicate (db.currentCandidates.count cred) candidateVerdict ++
        (db.overlay.fateOf cred).verdicts ++
        (statusVerdict (db.draining.statusOf cred)).conclusive ++
        List.replicate (db.drainingCandidates.count cred) candidateVerdict) := by
  have hfold : db.memberVerdict cred = fold ((db.ccMemberVerdicts.filter (·.1 = cred)).map snd) := by
    rw [← getD_group, memberVerdict, resolveCCMembers, get?_map]
    cases (group db.ccMemberVerdicts).get? cred <;> rfl
  have hcur : db.current.aggregate.resolveCommitteeCandidates.map (fun (_, cold) ↦ (cold, candidateVerdict)) =
      db.currentCandidates.map fun cold ↦ (cold, candidateVerdict) := by
    rw [currentCandidates, List.map_map]
    rfl
  have hdr : db.draining.aggregate.resolveCommitteeCandidates.filterMap (fun (id, cold) ↦
      if db.overlay.hasPrunedProposal id then none
      else some (cold, candidateVerdict)) =
      db.drainingCandidates.map fun cold ↦ (cold, candidateVerdict) := by
    rw [drainingCandidates, map_filterMap]
    congr 1
    funext ⟨id, cold⟩
    by_cases h : db.overlay.hasPrunedProposal id <;> simp [h]
  rw [hfold, ccMemberVerdicts, hcur, hdr]
  simp only [filter_append, map_append, map_snd_filter_resolveCCMembers hcurrent,
    map_snd_filter_resolveCCMembers hdraining, map_snd_filter_candidates, map_snd_filter_ccMembers]

/-- The row of a member after a verdict. A verdict on someone unknown makes a new row. -/
def rowAfter : Existence CommitteeMemberBind → Option CCMemberRow → Option CCMemberRow
  | .exists_ bind, row => some (ccMembersUpsertRow bind row)
  | .gone, _ => none
  | .unknown, row => row

/-- The row of a candidate that has none. -/
def blankIf (candidate : Prop) [Decidable candidate] : Option CCMemberRow :=
  if candidate then some {} else none

variable (volatile : VolatileDB)

/-- The row of a member, for a certificate that names it. -/
def Preparation.readMember (db : Store) (cred : Credential) : Option CCMemberRow :=
  (rowAfter (volatile.memberVerdict cred) (db.ccMembers.get? cred)).or
    (blankIf (cred ∈ stableCandidates volatile db))

theorem get?_foldl_candidates (cold : SortedSet Credential) (cred : Credential) :
    ∀ (candidates : List Credential) (members : SortedMap Credential CCMemberRow),
      (candidates.foldl (fun members candidate ↦
        if candidate ∈ cold then members.alter candidate fun existing ↦ some (existing.getD {})
        else members) members).get? cred =
      (members.get? cred).or (blankIf (cred ∈ cold ∧ cred ∈ candidates))
  | [], members => by simp [blankIf]
  | candidate :: candidates, members => by
    rw [foldl_cons, get?_foldl_candidates cold cred candidates]
    by_cases hcold : candidate ∈ cold
    · rw [if_pos hcold, get?_alter]
      by_cases heq : cred = candidate
      · subst heq
        cases members.get? cred <;> simp [blankIf, hcold]
      · simp [heq, blankIf]
    · rw [if_neg hcold]
      by_cases heq : cred = candidate
      · subst heq
        simp [blankIf, hcold]
      · simp [heq, blankIf]

theorem get?_resolveCommittee (db : Store)
    (hne : ¬ (cold.entries = [] ∧ hot.entries = [])) (cred : Credential) :
    (resolveCommittee volatile db cold hot).get? cred =
      ((rowAfter (volatile.memberVerdict cred) (db.ccMembers.get? cred)).filter
        fun row ↦ !db.ccMembers.contains cred || isNeeded cold hot cred row.status).or
      (blankIf (cred ∈ cold ∧ cred ∈ stableCandidates volatile db)) := by
  rw [resolveCommittee, if_neg hne, get?_foldl_candidates, get?_insertAll,
    volatileMembers, committeeRows, get?_filterMap,
    get?_filterMap, contains]
  congr 1
  rw [memberVerdict]
  rcases db.ccMembers.get? cred with - | row
  · rcases volatile.resolveCCMembers.get? cred with - | verdict
    · rfl
    · cases verdict <;> rfl
  · rcases volatile.resolveCCMembers.get? cred with - | verdict
    · simp [rowAfter, Option.filter]
    · cases verdict <;> simp [rowAfter, Option.filter, ccMembersUpsertRow]

/-- What certificates read is the row of the member they name. -/
theorem get?_resolveCommittee_of_mem (db : Store) (hcold : cred ∈ cold) :
    (resolveCommittee volatile db cold hot).get? cred = readMember volatile db cred := by
  have hne : ¬ (cold.entries = [] ∧ hot.entries = []) := fun h ↦ by
    rw [mem_iff, ← mem_entries_iff, h.1] at hcold
    cases hcold
  rw [get?_resolveCommittee volatile db hne, readMember]
  congr 1
  · cases rowAfter (volatile.memberVerdict cred) (db.ccMembers.get? cred) <;> simp [isNeeded, hcold]
  · simp [hcold]

/-- What votes read is the rows of the members that their hot credentials belong to. -/
theorem get?_resolveCommittee_of_hot (db : Store) {delegate} (hhot : delegate ∈ hot) (cred : Credential)
    {row} (hrow : row.status = some (.delegatedToHotCredential delegate)) :
    (resolveCommittee volatile db cold hot).get? cred = some row ↔
      readMember volatile db cred = some row := by
  have hne : ¬ (cold.entries = [] ∧ hot.entries = []) := fun h ↦ by
    rw [mem_iff, ← mem_entries_iff, h.2] at hhot
    cases hhot
  have hblank : ∀ (p : Prop) [Decidable p], blankIf p ≠ some row := by
    intro p _ h
    rw [blankIf] at h
    split_ifs at h
    obtain rfl := some_inj.1 h
    cases hrow
  rw [get?_resolveCommittee volatile db hne, readMember, or_eq_some_iff,
    or_eq_some_iff, or_iff_left fun h ↦ hblank _ h.2, or_iff_left fun h ↦ hblank _ h.2,
    filter_eq_some_iff]
  refine and_iff_left_of_imp fun _ ↦ ?_
  simp [isNeeded, hrow, hhot]

theorem rowAfter_foldBind_draining (newer : CommitteeMemberBind) (h : newer.value = none)
    (draining : Option ConstitutionalCommitteeMemberStatus) (m : ℕ) (row : Option CCMemberRow) :
    rowAfter (foldBind newer ((statusVerdict draining).conclusive ++ List.replicate m candidateVerdict)) row =
      some (ccMembersUpsertRow newer (withStatus draining row)) := by
  have hnil : ∀ {bind : CommitteeMemberBind}, bind.value = none →
      foldBind bind (List.replicate m candidateVerdict) = .exists_ bind := fun hbind ↦ by
    rw [← append_nil (List.replicate m _), foldBind_candidates hbind]
    rfl
  obtain ⟨left, right, value⟩ := newer
  obtain rfl : value = none := h
  rcases draining with - | status
  · change rowAfter (foldBind _ (List.replicate m candidateVerdict)) row = _
    rw [hnil rfl]
    rfl
  · change rowAfter (foldBind (Bind.andThen { left := .set status } ⟨left, right, none⟩)
      (List.replicate m candidateVerdict)) row = _
    rw [hnil rfl]
    cases left <;> cases right <;> cases row <;> rfl

/-- What the layers under the current one come to, for a binding of the current one. -/
def CommitteeFate.under (fate : CommitteeFate)
    (draining : Option ConstitutionalCommitteeMemberStatus) (row : Option CCMemberRow) :
    Option CCMemberRow :=
  match fate with
  | elected validUntil alsoRemoved =>
    electedRow validUntil (if alsoRemoved then row else withStatus draining row)
  | removed => row
  | settled | unnamed | erased => withStatus draining row

theorem rowAfter_foldBind (newer : CommitteeMemberBind) (h : newer.value = none)
    (fate : CommitteeFate) (draining : Option ConstitutionalCommitteeMemberStatus) (m : ℕ)
    (row : Option CCMemberRow) :
    rowAfter (foldBind newer (fate.verdicts ++ ((statusVerdict draining).conclusive ++
      List.replicate m candidateVerdict))) row =
      some (ccMembersUpsertRow newer (fate.under draining row)) := by
  obtain ⟨left, right, value⟩ := newer
  obtain rfl : value = none := h
  cases fate with
  | settled | unnamed | erased => exact rowAfter_foldBind_draining _ rfl draining m row
  | removed => rfl
  | elected validUntil alsoRemoved =>
    rcases alsoRemoved with - | -
    · change rowAfter (foldBind (Bind.andThen { right := .set validUntil } ⟨left, right, none⟩)
        ((statusVerdict draining).conclusive ++ List.replicate m candidateVerdict)) row =
          some (ccMembersUpsertRow _ (electedRow validUntil (withStatus draining row)))
      rw [rowAfter_foldBind_draining _ rfl]
      cases left <;> cases right <;> cases withStatus draining row <;> rfl
    · cases left <;> cases right <;> cases row <;> rfl

/-- **The row after the verdicts of all the layers**, by what the boundary does. -/
theorem rowAfter_fold (current draining : Option ConstitutionalCommitteeMemberStatus) (n m : ℕ)
    (fate : CommitteeFate) (row : Option CCMemberRow) :
    rowAfter (fold ((statusVerdict current).conclusive ++ List.replicate n candidateVerdict ++
      fate.verdicts ++ (statusVerdict draining).conclusive ++ List.replicate m candidateVerdict)) row =
      match fate with
      | .elected _ _ => withStatus current (fate.under draining row)
      | .removed => if current = none ∧ n = 0 then none else (withStatus current row).or (some {})
      | _ => (withStatus current (withStatus draining row)).or (blankIf (0 < n ∨ 0 < m)) := by
  rw [append_assoc, append_assoc, append_assoc]
  rcases current with - | status
  · rcases n with - | n
    · change rowAfter (fold (fate.verdicts ++ _)) row = _
      have hdraining : rowAfter (fold ((statusVerdict draining).conclusive ++
          List.replicate m candidateVerdict)) row =
          (withStatus draining row).or (blankIf (0 < m)) := by
        rcases draining with - | status
        · rcases m with - | m
          · cases row <;> rfl
          · refine (rowAfter_foldBind_draining {} rfl none m row).trans ?_
            cases row <;> simp [withStatus, blankIf, ccMembersUpsertRow, Resettable.intoOption]
        · refine (rowAfter_foldBind_draining { left := .set status } rfl none m row).trans ?_
          cases row <;> rfl
      cases fate with
      | settled | unnamed | erased => simpa [CommitteeFate.verdicts, withStatus] using hdraining
      | removed => rfl
      | elected validUntil alsoRemoved =>
        have helect : ∀ row : Option CCMemberRow,
            some (ccMembersUpsertRow { right := .set validUntil } row) = electedRow validUntil row := by
          rintro (_ | row) <;> rfl
        rcases alsoRemoved with - | -
        · refine (rowAfter_foldBind_draining { right := .set validUntil } rfl draining m row).trans ?_
          exact helect _
        · exact helect row
    · change rowAfter (foldBind {} (List.replicate n candidateVerdict ++ _)) row = _
      rw [foldBind_candidates rfl, rowAfter_foldBind _ rfl]
      have hblank : blankIf (0 < n + 1 ∨ 0 < m) = some {} := if_pos (.inl n.succ_pos)
      have hgetD : ∀ row : Option CCMemberRow, some (ccMembersUpsertRow {} row) = row.or (some {}) := by
        rintro (_ | row) <;> rfl
      rw [hgetD, hblank]
      cases fate <;> simp [CommitteeFate.under, withStatus, electedRow]
  · change rowAfter (foldBind { left := .set status } (List.replicate n candidateVerdict ++ _)) row = _
    have hset : ∀ row : Option CCMemberRow,
        some (ccMembersUpsertRow { left := .set status } row) = withStatus (some status) row := by
      rintro (_ | row) <;> rfl
    rw [foldBind_candidates rfl, rowAfter_foldBind _ rfl, hset]
    cases fate <;> simp [CommitteeFate.under, withStatus]

/-! ### Candidates after a flush -/

/-- A proposal has the same content in every layer, since its transaction is part of its name. -/
structure OneProposalPerId (db : VolatileDB) (s : Store) : Prop where
  current_draining : ∀ {id newer older}, db.current.aggregate.proposals.get? id = some newer →
    db.draining.aggregate.proposals.get? id = some older → newer = older
  current_store : ∀ {id newer older}, db.current.aggregate.proposals.get? id = some newer →
    s.proposals.get? id = some older → newer = older
  draining_store : ∀ {id newer older}, db.draining.aggregate.proposals.get? id = some newer →
    s.proposals.get? id = some older → newer = older

/-- Everything volatile has been written. -/
def VolatileDB.emptied (db : VolatileDB) : VolatileDB :=
  { db with current := [], draining := [], overlay := db.overlay.applied }

theorem mem_stableCandidates {volatile db} :
    cred ∈ stableCandidates volatile db ↔
      ∃ id state, db.proposals.get? id = some state ∧ volatile.resolveProposal id ≠ .gone ∧
        cred ∈ candidatesOf state := by
  simp only [stableCandidates, mem_flatMap, Prod.exists, mem_entries_iff]
  refine exists_congr fun id ↦ exists_congr fun state ↦ and_congr_right fun _ ↦ ?_
  cases volatile.resolveProposal id <;> simp

theorem mem_currentCandidates :
    cred ∈ db.currentCandidates ↔
      ∃ id state, db.current.aggregate.proposals.get? id = some state ∧
        cred ∈ candidatesOf state := by
  simp [currentCandidates, resolveCommitteeCandidates, mem_entries_iff]

theorem mem_drainingCandidates :
    cred ∈ db.drainingCandidates ↔
      ∃ id state, db.draining.aggregate.proposals.get? id = some state ∧
        db.overlay.hasPrunedProposal id = false ∧
        cred ∈ candidatesOf state := by
  simp [drainingCandidates, resolveCommitteeCandidates,
    mem_entries_iff, and_comm, and_assoc]

theorem resolveProposal_ne_gone_iff {id} :
    db.resolveProposal id ≠ .gone ↔ (db.current.aggregate.proposals.get? id).isSome ∨
      db.overlay.hasPrunedProposal id = false := by
  rw [VolatileDB.resolveProposal, VolatileAggregate.resolveProposal, VolatileAggregate.resolveProposal]
  cases db.current.aggregate.proposals.get? id <;> cases db.overlay.hasPrunedProposal id <;>
    cases db.draining.aggregate.proposals.get? id <;> simp

/-- **Reading finds the candidates that are there after a flush.** -/
theorem mem_stableCandidates_emptied {drained opened : Store}
    (h : Flushed db eras s drained opened s') (hone : OneProposalPerId db s) :
    cred ∈ stableCandidates db.emptied s' ↔ cred ∈ db.currentCandidates ∨ cred ∈ db.drainingCandidates ∨
        cred ∈ stableCandidates db s := by
  simp only [mem_stableCandidates, mem_currentCandidates, mem_drainingCandidates,
    resolveProposal_ne_gone_iff, h.get?_proposals, or_eq_some_iff]
  constructor
  · rintro ⟨id, state, hstate | ⟨hcurrent, hstate⟩, -, hmem⟩
    · exact .inl ⟨id, state, hstate, hmem⟩
    · split_ifs at hstate with hpruned
      rw [Bool.not_eq_true] at hpruned
      rcases or_eq_some_iff.1 hstate with hstate | ⟨-, hstate⟩
      · exact .inr (.inl ⟨id, state, hstate, hpruned, hmem⟩)
      · exact .inr (.inr ⟨id, state, hstate, .inr hpruned, hmem⟩)
  · -- a proposal that is in two layers is the same in both
    rintro (⟨id, state, hstate, hmem⟩ | ⟨id, state, hstate, hpruned, hmem⟩ | ⟨id, state, hstate, hkept, hmem⟩)
    · exact ⟨id, state, .inl hstate, .inr rfl, hmem⟩
    · rcases hcurrent : db.current.aggregate.proposals.get? id with - | newer
      · exact ⟨id, state, .inr ⟨hcurrent, by simp [hpruned, hstate]⟩, .inr rfl, hmem⟩
      · obtain rfl := hone.current_draining hcurrent hstate
        exact ⟨id, newer, .inl hcurrent, .inr rfl, hmem⟩
    · rcases hcurrent : db.current.aggregate.proposals.get? id with - | newer
      · have hpruned : db.overlay.hasPrunedProposal id = false := by simpa [hcurrent] using hkept
        rcases hdraining : db.draining.aggregate.proposals.get? id with - | newer
        · exact ⟨id, state, .inr ⟨hcurrent, by simp [hpruned, hdraining, hstate]⟩, .inr rfl, hmem⟩
        · obtain rfl := hone.draining_store hdraining hstate
          exact ⟨id, newer, .inr ⟨hcurrent, by simp [hpruned, hdraining]⟩, .inr rfl, hmem⟩
      · obtain rfl := hone.current_store hcurrent hstate
        exact ⟨id, newer, .inl hcurrent, .inr rfl, hmem⟩

/-! ### The committee -/

/-- No member has a row that says nothing. -/
def Store.NoBlankRows (s : Store) : Prop :=
  ∀ cred, s.ccMembers.get? cred ≠ some {}

/-- **The members that are misread while a boundary is pending.** -/
def MisreadMember (db : VolatileDB) (s : Store) (cred : Credential) : Prop :=
  let row := s.ccMembers.get? cred
  let closing := withStatus (db.draining.statusOf cred) row
  let status := db.current.statusOf cred
  match db.overlay.fateOf cred with
  | .settled => False
  -- without a term it is forgotten, and its status is read all the same
  | .unnamed => closing.isSome ∧ closing.bind (·.validUntil) = none ∧ status = none
  -- everyone is forgotten, and statuses and terms are read all the same
  | .erased => closing.isSome ∧ ¬ (status.isSome ∧ closing.bind (·.validUntil) = none)
  -- the removal hides a status of the closing epoch from the election above it
  | .elected _ alsoRemoved => alsoRemoved ∧ status = none ∧ closing.bind (·.status) ≠ row.bind (·.status)
  | .removed =>
    if status = none ∧ cred ∉ db.currentCandidates then
      -- the removal hides a proposal of the closing epoch that names the member again
      cred ∈ db.drainingCandidates ∧ cred ∉ stableCandidates db s
    else
      -- a status or a candidacy of the new epoch hides the removal
      row.isSome ∧ ¬ (status.isSome ∧ row.bind (·.validUntil) = none)

theorem or_blankIf_or_blankIf (row : Option CCMemberRow) (p q : Prop) [Decidable p] [Decidable q] :
    (row.or (blankIf p)).or (blankIf q) = row.or (blankIf (p ∨ q)) := by
  by_cases hp : p <;> cases row <;> simp [blankIf, hp]

section

variable {row : Option CCMemberRow} (status : Option ConstitutionalCommitteeMemberStatus)

theorem withStatus_ne_blank (h : row ≠ some {}) : withStatus status row ≠ some {} := by
  rcases status with - | status
  · exact h
  · simp [withStatus]

/-- Not naming a member: its row is kept with a term only, and read in any case. -/
theorem unnamed_eq_iff (h : row ≠ some {}) (candidate : Prop) [Decidable candidate] :
    (withStatus status row).or (blankIf candidate) =
      (withStatus status (row.filter (·.validUntil.isSome))).or (blankIf candidate) ↔
    ¬ (row.isSome ∧ row.bind (·.validUntil) = none ∧ status = none) := by
  rcases row with _ | ⟨state, _ | validUntil⟩
  · simp
  · rcases status with - | status
    · have hstate : state ≠ none := fun hstate ↦ h (by rw [hstate])
      by_cases hcandidate : candidate <;> simp [withStatus, blankIf, Option.filter, hcandidate, hstate]
    · simp [withStatus, Option.filter]
  · simp [Option.filter]

/-- Putting the committee out of office: nothing is left, and the row is read. -/
theorem erased_eq_iff (h : row ≠ some {}) (candidate : Prop) [Decidable candidate] :
    (withStatus status row).or (blankIf candidate) = (withStatus status none).or (blankIf candidate) ↔
    ¬ (row.isSome ∧ ¬ (status.isSome ∧ row.bind (·.validUntil) = none)) := by
  rcases row with _ | ⟨state, validUntil⟩
  · simp
  · rcases status with - | status
    · have hblank : (⟨state, validUntil⟩ : CCMemberRow) ≠ {} := fun hrow ↦ h (by rw [hrow])
      by_cases hcandidate : candidate <;> simp [withStatus, blankIf, hcandidate, hblank]
    · simp [withStatus]

/-- Removing a member: a newer verdict hides it, and it hides the older ones. -/
theorem removed_eq_iff (h : row ≠ some {}) (newer older stable : Prop) [Decidable newer]
    [Decidable older] [Decidable stable] :
    (if status = none ∧ ¬ newer then none else (withStatus status row).or (some {})).or (blankIf stable) =
      (withStatus status none).or (blankIf (newer ∨ older ∨ stable)) ↔
    ¬ if status = none ∧ ¬ newer then older ∧ ¬ stable
      else row.isSome ∧ ¬ (status.isSome ∧ row.bind (·.validUntil) = none) := by
  rcases status with - | status
  · by_cases hnewer : newer
    · rcases row with _ | row
      · simp [hnewer, withStatus, blankIf]
      · simpa [hnewer, withStatus, blankIf] using fun hrow ↦ h (by rw [hrow])
    · by_cases hstable : stable <;> by_cases holder : older <;>
        simp [hnewer, hstable, holder, withStatus, blankIf]
  · rcases row with _ | ⟨state, validUntil⟩ <;> simp [withStatus]

end

section

variable {drained opened : Store}

section

variable (h : Flushed db eras s drained opened s')
  (hdraining : ∀ block ∈ db.draining, block.fragment.BindsStatus)
    (hcurrent : ∀ block ∈ db.current, block.fragment.BindsStatus)
include h hdraining hcurrent

theorem Flushed.get?_ccMembers (cred : Credential) :
    s'.ccMembers.get? cred = withStatus (db.current.statusOf cred) ((db.overlay.fateOf cred).row
        (withStatus (db.draining.statusOf cred) (s.ccMembers.get? cred))) := by
  rw [get?_ccMembers_of_applyBlocks h.newer_current hcurrent h.flushed_eq,
    get?_ccMembers_of_crosses h.crosses,
    get?_ccMembers_of_applyBlocks h.newer_draining hdraining h.drained_eq]

theorem readMember_eq_flushed_iff (hone : OneProposalPerId db s) (hrows : s.NoBlankRows)
    (cred : Credential) :
    readMember db s cred = readMember db.emptied s' cred ↔ ¬ MisreadMember db s cred := by
  have hflushed : readMember db.emptied s' cred =
      (s'.ccMembers.get? cred).or (blankIf (cred ∈ stableCandidates db.emptied s')) := rfl
  rw [hflushed, h.get?_ccMembers hdraining hcurrent, readMember,
    memberVerdict_eq (statusHistory_of_bindsStatus cred _ hcurrent)
      (statusHistory_of_bindsStatus cred _ hdraining), rowAfter_fold, MisreadMember]
  simp only [mem_stableCandidates_emptied h hone, count_pos_iff, count_eq_zero]
  have hclosing := withStatus_ne_blank (db.draining.statusOf cred) (hrows cred)
  cases db.overlay.fateOf cred with
  | settled => simp [CommitteeFate.row, or_blankIf_or_blankIf, or_assoc]
  | unnamed =>
    simp only [or_blankIf_or_blankIf, or_assoc]
    exact unnamed_eq_iff _ hclosing _
  | erased =>
    simp only [or_blankIf_or_blankIf, or_assoc]
    exact erased_eq_iff _ hclosing _
  | elected validUntil alsoRemoved =>
    simp only [CommitteeFate.under, CommitteeFate.row]
    -- the row is read without the statuses of the closing epoch when the member is removed as well
    rcases db.current.statusOf cred with - | status
    · cases alsoRemoved <;> simp [withStatus, electedRow, eq_comm]
    · cases alsoRemoved <;> simp [withStatus, electedRow]
  | removed => exact removed_eq_iff _ (hrows cred) _ _ _

end

theorem CommitteeFate.row_ne_blank {row} (h : row ≠ some {}) :
    ∀ fate : CommitteeFate, fate.row row ≠ some {}
  | settled => h
  | unnamed => fun hrow ↦ h (filter_eq_some_iff.1 hrow).1
  | erased => by simp [CommitteeFate.row]
  | elected _ _ => by simp [CommitteeFate.row, electedRow]
  | removed => by simp [CommitteeFate.row]

theorem Store.NoBlankRows.flushed (hrows : s.NoBlankRows)
    (h : Flushed db eras s drained opened s')
    (hdraining : ∀ block ∈ db.draining, block.fragment.BindsStatus)
    (hcurrent : ∀ block ∈ db.current, block.fragment.BindsStatus) : s'.NoBlankRows := by
  intro cred
  rw [h.get?_ccMembers hdraining hcurrent]
  exact withStatus_ne_blank _ (CommitteeFate.row_ne_blank (withStatus_ne_blank _ (hrows cred)) _)

end

/-- **Reading the committee gives what a flush would leave, except for the misread members**: for
certificates by cold credential, and for votes by hot credential. -/
theorem resolveCommittee_eq_flushed_iff (hlayered : Layered db s)
    (hflush : db.flush eras s = .ok s')
    (hdraining : ∀ block ∈ db.draining, block.fragment.BindsStatus)
    (hcurrent : ∀ block ∈ db.current, block.fragment.BindsStatus) (hone : OneProposalPerId db s)
    (hrows : s.NoBlankRows) (cred : Credential) :
    (∀ cold hot : SortedSet Credential,
      (cred ∈ cold →
        (resolveCommittee db s cold hot).get? cred =
          (resolveCommittee db.emptied s' cold hot).get? cred) ∧
      ∀ delegate ∈ hot, ∀ row : CCMemberRow, row.status = some (.delegatedToHotCredential delegate) →
        ((resolveCommittee db s cold hot).get? cred = some row ↔
          (resolveCommittee db.emptied s' cold hot).get? cred = some row)) ↔
      ¬ MisreadMember db s cred := by
  obtain ⟨drained, opened, h⟩ := exists_flushed hlayered hflush
  rw [← readMember_eq_flushed_iff h hdraining hcurrent hone hrows]
  constructor
  · intro hagree
    have hcold : cred ∈ add ∅ cred := mem_add.2 (.inl rfl)
    have hread := (hagree (add ∅ cred) ∅).1 hcold
    rwa [get?_resolveCommittee_of_mem _ _ hcold, get?_resolveCommittee_of_mem _ _ hcold] at hread
  · intro hread cold hot
    refine ⟨fun hcold ↦ ?_, fun delegate hhot row hrow ↦ ?_⟩
    · rw [get?_resolveCommittee_of_mem _ _ hcold, get?_resolveCommittee_of_mem _ _ hcold, hread]
    · rw [get?_resolveCommittee_of_hot _ _ hhot _ hrow, get?_resolveCommittee_of_hot _ _ hhot _ hrow, hread]

/-- A store with one committee member, that has authorised a hot credential. -/
def oneMember : Store :=
  { blankStore with
    ccMembers := .ofList [(.keyHash 1,
      { status := some (.delegatedToHotCredential (.keyHash 2)), validUntil := some 100 })] }

/-- A motion of no confidence that is pending, with an empty block after it. -/
def pendingNoConfidence : VolatileDB :=
  crossing {} { quietBoundary with constitutionalCommittee := some .noConfidence } {}

/-- **A committee that is out of office is read as if it were not.** -/
theorem erased_member_is_read : ∃ s', Layered pendingNoConfidence oneMember ∧
    pendingNoConfidence.flush tenSlotEpochs oneMember = .ok s' ∧
    (resolveCommittee pendingNoConfidence oneMember ∅
      (.ofList [(.keyHash 2, ())])).get? (.keyHash 1) =
        some { status := some (.delegatedToHotCredential (.keyHash 2)), validUntil := some 100 } ∧
    (resolveCommittee pendingNoConfidence.emptied s' ∅
      (.ofList [(.keyHash 2, ())])).get? (.keyHash 1) = none :=
  ⟨_, layered_crossing _ _ _ rfl rfl, rfl, rfl, rfl⟩

/-- A change of the committee that is pending: one member leaves, another joins. -/
def pendingElection : VolatileDB :=
  crossing {}
    { quietBoundary with
      constitutionalCommittee := some
        (.changeMembers (.ofList [(.keyHash 1, ())]) (.ofList [(.keyHash 3, 50)]) 1) } {}

theorem resolveCommittee_eq_flushed_elected : ∃ s',
    pendingElection.flush tenSlotEpochs oneMember = .ok s' ∧
    (resolveCommittee pendingElection oneMember (.ofList [(.keyHash 3, ())]) ∅).get? (.keyHash 3) =
      (resolveCommittee pendingElection.emptied s' (.ofList [(.keyHash 3, ())]) ∅).get? (.keyHash 3) := by
  obtain ⟨s', hflush⟩ : ∃ s', pendingElection.flush tenSlotEpochs oneMember = .ok s' := ⟨_, rfl⟩
  refine ⟨s', hflush, ?_⟩
  refine ((resolveCommittee_eq_flushed_iff (layered_crossing _ _ _ rfl rfl) hflush ?_ ?_ ?_ ?_
    (.keyHash 3)).2 ?_ _ _).1 (by decide)
  · exact nofun
  · intro block hblock cred
    obtain rfl := mem_singleton.1 hblock
    exact ⟨none, rfl⟩
  · exact ⟨nofun, nofun, nofun⟩
  · intro cred h
    have hmem := mem_entries_iff.2 h
    cases mem_singleton.1 hmem
  · rintro ⟨h, -⟩
    cases h

end Amaru
