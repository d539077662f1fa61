import Amaru.Kernel.EraHistory
import Amaru.Kernel.Proposals
import Amaru.Ledger.Governance.ProposalsTree
import Mathlib.Data.List.Sort

/-!
# The forest of proposals

All the proposals a round of ratification works on: a lookup table, the order in which they are
considered, and one tree per purpose. A round is `drain` (build the forest), then any number of
`next` and `enact`, then `end`, which returns what leaves the ledger.

`end` sorts the remaining proposals by submission epoch with a sort that is **not stable**, so the
proposals of one epoch are visited in an order the code leaves open. The loop is therefore
`visit`, over a given visiting order; `Ends` relates a forest to every result the sort allows, and
the executable `end_` takes the order a stable sort gives.
-/

namespace Amaru

open Except SortedMap

/-- A proposal with its submission time and final valid epoch. -/
structure WithContext (α : Type*) where
  proposedIn : ℕ
  validUntil : ℕ
  pointer : ProposalPointer
  proposal : α
deriving DecidableEq

/-- A proposal to build the forest from. -/
structure CandidateProposal where
  validUntil : ℕ
  proposedIn : ProposalPointer
  governanceAction : GovernanceAction
deriving DecidableEq

/-- The forest of proposals. -/
structure ProposalsForest where
  proposals : SortedMap ProposalId (WithContext ProposalEnum)
  pruned : SortedMap ProposalId RatificationStatus
  sequence : List ProposalId
  isInterrupted : Bool
  treasury : ℕ
  currentEpoch : ℕ
  protocolParameters : ProposalsTree ProposalId
  hardFork : ProposalsTree ProposalId
  constitutionalCommittee : ProposalsTree ProposalId
  constitution : ProposalsTree ProposalId

/-- Insert a proposal in a sequence by decreasing priority, then by increasing pointer. -/
def priorityInsert (proposals : SortedMap ProposalId (WithContext ProposalEnum)) (newId : ProposalId)
    (newPointer : ProposalPointer) (newProposal : ProposalEnum) : List ProposalId → List ProposalId
  | [] => [newId]
  | id :: seq =>
    match proposals.get? id with
    | some context =>
      match context.proposal.cmpPriority newProposal with
      | .lt => newId :: id :: seq
      | .eq =>
        if newPointer < context.pointer then newId :: id :: seq
        else id :: priorityInsert proposals newId newPointer newProposal seq
      | .gt => id :: priorityInsert proposals newId newPointer newProposal seq
    -- unreachable in the source: the sequence only holds identifiers of the lookup table
    | none => id :: priorityInsert proposals newId newPointer newProposal seq

namespace ProposalsForest

variable {f f' : ProposalsForest} {id : ProposalId} {eras : EraHistory}
  {action : GovernanceAction} {pointer : ProposalPointer} {proposal : ProposalEnum} {validUntil : ℕ}

/-- A forest without proposals. -/
def new (currentEpoch : ℕ) (roots : ProposalsRoots) (treasury : ℕ) : ProposalsForest where
  proposals := ∅
  pruned := ∅
  sequence := []
  isInterrupted := false
  treasury
  currentEpoch
  protocolParameters := .new roots.protocolParameters
  hardFork := .new roots.hardFork
  constitutionalCommittee := .new roots.constitutionalCommittee
  constitution := .new roots.constitution

section

variable (f : ProposalsForest)

/-- The tree of a purpose. -/
def tree : Purpose → ProposalsTree ProposalId
  | .protocolParameters => f.protocolParameters
  | .hardFork => f.hardFork
  | .constitutionalCommittee => f.constitutionalCommittee
  | .constitution => f.constitution

/-- Replace the tree of a purpose. -/
def setTree (t : ProposalsTree ProposalId) : Purpose → ProposalsForest
  | .protocolParameters => { f with protocolParameters := t }
  | .hardFork => { f with hardFork := t }
  | .constitutionalCommittee => { f with constitutionalCommittee := t }
  | .constitution => { f with constitution := t }

/-- Insert a proposal in the tree of its purpose; orphans go to no tree. -/
def insertInTree (id : ProposalId) (proposal : ProposalEnum) :
    Except (ProposalsInsertError ProposalId) ProposalsForest :=
  match proposal.purpose with
  | some purpose => (f.setTree · purpose) <$> (f.tree purpose).insert id proposal.parent
  | none => .ok f

/-- Insert a proposal in the forest. -/
def insert (eras : EraHistory) (id : ProposalId) (validUntil : ℕ)
    (proposedIn : ProposalPointer) (action : GovernanceAction) :
    Except (ProposalsInsertError ProposalId) ProposalsForest := do
  let proposal := action.toProposalEnum
  let f ← f.insertInTree id proposal
  let sequence := priorityInsert f.proposals id proposedIn proposal f.sequence
  let slot := proposedIn.slot
  let epoch ← (eras.slotToEpoch slot slot).mapError fun _ ↦ .internalSlotToEpochError slot
  .ok { f with
    sequence
    proposals := f.proposals.insert id { proposedIn := epoch, validUntil, pointer := proposedIn, proposal } }

/-- The rows in the order in which they are inserted: by increasing submission pointer. -/
def drainOrder (rows : List (ProposalId × CandidateProposal)) : List (ProposalId × CandidateProposal) :=
  rows.insertionSort fun a b ↦ a.2.proposedIn ≤ b.2.proposedIn

/-- Insert one row, which must not have expired. -/
def drainStep (currentEpoch : ℕ) (eras : EraHistory) (forest : ProposalsForest)
    (row : ProposalId × CandidateProposal) :
    Except (ProposalsInsertError ProposalId) ProposalsForest :=
  if row.2.validUntil < currentEpoch then .error (.expired row.1 row.2.validUntil)
  else forest.insert eras row.1 row.2.validUntil row.2.proposedIn row.2.governanceAction

/-- Insert many proposals. -/
def drain (eras : EraHistory) (rows : List (ProposalId × CandidateProposal)) :
    Except (ProposalsInsertError ProposalId) ProposalsForest :=
  (drainOrder rows).foldlM (drainStep f.currentEpoch eras) f

/-- The current roots of the forest. -/
def roots : ProposalsRoots where
  protocolParameters := f.protocolParameters.root
  hardFork := f.hardFork.root
  constitutionalCommittee := f.constitutionalCommittee.root
  constitution := f.constitution.root

/-- The proposal whose enactment interrupts the round. -/
def interrupts : Purpose → Bool
  | .protocolParameters => false
  | .hardFork | .constitutionalCommittee | .constitution => true

/-- Forget the pruned proposals: mark them, then drop them from the table and the sequence. -/
def prune (id : ProposalId) (obsolete : List ProposalId) : ProposalsForest :=
  let pruned := (obsolete.foldl (fun m id ↦ m.insert id .notRatified) f.pruned).insert id .ratified
  { f with
    pruned
    proposals := f.proposals.filter fun id _ ↦ !pruned.contains id
    sequence := f.sequence.filter fun id ↦ !pruned.contains id }

/-- Promote a proposal as the root of its tree, and prune what this makes obsolete. -/
def enactIn (purpose : Purpose) (id : ProposalId) :
    Except (ProposalsEnactError ProposalId) ProposalsForest := do
  let (t, id, obsolete) ← (f.tree purpose).enact id
  .ok (({ f.setTree t purpose with
    isInterrupted := f.isInterrupted || interrupts purpose }).prune id obsolete)

/-- Enact a proposal. -/
def enact (id : ProposalId) : ProposalEnum → Except (ProposalsEnactError ProposalId) ProposalsForest
  | .hardFork .. => f.enactIn .hardFork id
  | .constitutionalCommittee .. => f.enactIn .constitutionalCommittee id
  | .constitution .. => f.enactIn .constitution id
  | .protocolParameters .. => f.enactIn .protocolParameters id
  | .orphan orphan =>
    let treasury := match orphan with
      | .nicePoll => f.treasury
      | .treasuryWithdrawal withdrawals =>
        withdrawals.entries.foldl (fun treasury e ↦ treasury - e.2) f.treasury
    if f.proposals.contains id then .ok ({ f with treasury }.prune id [])
    else .error (.unknownProposal id)

/-- Whether a proposal's parent is the current root of its tree. -/
def matchingRoot : ProposalEnum → Bool
  | .orphan _ => true
  | .protocolParameters _ parent => parent == f.protocolParameters.root
  | .hardFork _ parent => parent == f.hardFork.root
  | .constitutionalCommittee _ parent => parent == f.constitutionalCommittee.root
  | .constitution _ parent => parent == f.constitution.root

/-- Whether a treasury withdrawal asks for more than is left. The total is a saturating sum of
64-bit integers. -/
def isImpossibleWithdrawal : ProposalEnum → Bool
  | .orphan (.treasuryWithdrawal withdrawals) =>
    decide (f.treasury < withdrawals.values.foldl (fun total n ↦ min (total + n) (2 ^ 64 - 1)) 0)
  | _ => false

/-- Whether a committee change names a member beyond the (current) term limit. -/
def isInvalidCommittee (protocolParameters : ProtocolParameters) : ProposalEnum → Bool
  | .constitutionalCommittee (.changeMembers _ added _) _ =>
    added.values.any fun validUntil ↦
      decide (f.currentEpoch + 1 + protocolParameters.maxCommitteeTermLength < validUntil)
  | _ => false

/-- Whether a proposal of the sequence is to be voted on in this round. -/
def step (context : WithContext ProposalEnum) (protocolParameters : ProtocolParameters) : Bool :=
  if f.currentEpoch < context.proposedIn then false
  else if f.isImpossibleWithdrawal context.proposal then false
  else if f.isInvalidCommittee protocolParameters context.proposal then false
  else f.matchingRoot context.proposal

/-- The next candidate of a sequence, with what is left of the sequence. An identifier that is not
in the lookup table is unreachable in the source; it is skipped here. -/
def nextOf (f : ProposalsForest) (protocolParameters : ProtocolParameters) :
    List ProposalId → Option (ProposalId × WithContext ProposalEnum) × List ProposalId
  | [] => (none, [])
  | id :: sequence =>
    match f.proposals.get? id with
    | some context =>
      if f.step context protocolParameters then (some (id, context), sequence)
      else f.nextOf protocolParameters sequence
    | none => f.nextOf protocolParameters sequence

/-- The next proposal to vote on, if any; proposals passed over leave the sequence. -/
def next (protocolParameters : ProtocolParameters) :
    Option (ProposalId × WithContext ProposalEnum) × ProposalsForest :=
  if f.isInterrupted then (none, f)
  else
    let (candidate, sequence) := f.nextOf protocolParameters f.sequence
    (candidate, { f with sequence })

/-! ### The end of a round -/

/-- Visit one remaining proposal: it is pruned if it expires now, or if its parent was pruned
without having been ratified. -/
def visitOne (currentEpoch : ℕ) (pruned : SortedMap ProposalId RatificationStatus)
    (e : ProposalId × WithContext ProposalEnum) : SortedMap ProposalId RatificationStatus :=
  if e.2.validUntil = currentEpoch then pruned.insert e.1 .notRatified
  else
    match e.2.proposal.parent with
    | some parent =>
      if pruned.get? parent = some .notRatified then pruned.insert e.1 .notRatified else pruned
    | none => pruned

/-- Visit the remaining proposals in a given order. -/
def visit (order : List (ProposalId × WithContext ProposalEnum)) : SortedMap ProposalId RatificationStatus :=
  order.foldl (visitOne f.currentEpoch) f.pruned

/-- An order in which the remaining proposals may be visited: any that is sorted by submission
epoch. -/
def VisitingOrder (order : List (ProposalId × WithContext ProposalEnum)) : Prop :=
  order.Perm f.proposals.entries ∧ order.Pairwise fun a b ↦ a.2.proposedIn ≤ b.2.proposedIn

/-- The results the end of a round may have. -/
def Ends (pruned : SortedMap ProposalId RatificationStatus) : Prop :=
  ∃ order, f.VisitingOrder order ∧ pruned = f.visit order

/-- The end of a round, when proposals of one epoch are visited by identifier. -/
def end_ : SortedMap ProposalId RatificationStatus :=
  f.visit (f.proposals.entries.insertionSort fun a b ↦ a.2.proposedIn ≤ b.2.proposedIn)

theorem visitingOrder_insertionSort {entries : List (ProposalId × WithContext ProposalEnum)}
    (h : entries.Perm f.proposals.entries) :
    f.VisitingOrder (entries.insertionSort fun a b ↦ a.2.proposedIn ≤ b.2.proposedIn) := by
  exact ⟨(List.perm_insertionSort _ _).trans h, List.pairwise_insertionSort _ _⟩

theorem ends_end_ : f.Ends f.end_ :=
  ⟨_, f.visitingOrder_insertionSort (.refl _), rfl⟩

end

/-! ### What each operation does -/

section

variable (f : ProposalsForest) (t : ProposalsTree ProposalId)

@[simp] theorem tree_setTree (p q : Purpose) : (f.setTree t p).tree q = if q = p then t else f.tree q := by
  cases p <;> cases q <;> rfl

@[simp] theorem proposals_setTree (p : Purpose) : (f.setTree t p).proposals = f.proposals := by
  cases p <;> rfl

@[simp] theorem pruned_setTree (p : Purpose) : (f.setTree t p).pruned = f.pruned := by
  cases p <;> rfl

@[simp] theorem currentEpoch_setTree (p : Purpose) : (f.setTree t p).currentEpoch = f.currentEpoch := by
  cases p <;> rfl

@[simp] theorem sequence_setTree (p : Purpose) : (f.setTree t p).sequence = f.sequence := by
  cases p <;> rfl

end

theorem rootOf_roots (f : ProposalsForest) (p : Purpose) : f.roots.rootOf p = (f.tree p).root := by
  cases p <;> rfl

theorem tree_new (epoch : ℕ) (roots : ProposalsRoots) (treasury : ℕ) (p : Purpose) :
    (new epoch roots treasury).tree p = .new (roots.rootOf p) := by
  cases p <;> rfl

/-- What a successful insertion does: one more row, and one more node in the tree of its purpose. -/
theorem insert_eq_ok (h : f.insert eras id validUntil pointer action = .ok f') :
    (∃ epoch, f'.proposals = f.proposals.insert id
        { proposedIn := epoch, validUntil, pointer, proposal := action.toProposalEnum }) ∧
      f'.pruned = f.pruned ∧
      (f'.sequence = priorityInsert f.proposals id pointer action.toProposalEnum f.sequence ∧
        f'.treasury = f.treasury ∧ f'.isInterrupted = f.isInterrupted) ∧
      ∀ p, (action.toProposalEnum.purpose = some p →
          (f.tree p).insert id action.toProposalEnum.parent = .ok (f'.tree p)) ∧
        (action.toProposalEnum.purpose ≠ some p → f'.tree p = f.tree p) := by
  simp only [insert, bind_eq_ok_iff, mapError_eq_ok_iff] at h
  obtain ⟨g, hg, epoch, -, hf'⟩ := h
  cases hf'
  rcases hp : action.toProposalEnum.purpose with - | q
  · obtain rfl : f = g := by simpa [insertInTree, hp] using hg
    exact ⟨⟨epoch, rfl⟩, rfl, ⟨rfl, rfl, rfl⟩, fun p ↦ ⟨by simp, fun _ ↦ by cases p <;> rfl⟩⟩
  simp only [insertInTree, hp, map_eq_ok_iff] at hg
  obtain ⟨t, ht, rfl⟩ := hg
  refine ⟨⟨epoch, by simp⟩, by simp, by cases q <;> exact ⟨rfl, rfl, rfl⟩,
    fun p ↦ ⟨fun hpq ↦ ?_, fun hpq ↦ ?_⟩⟩
  · obtain rfl : q = p := Option.some.inj hpq
    rw [ht]
    cases q <;> rfl
  · have hne : p ≠ q := fun heq ↦ hpq (heq ▸ rfl)
    cases p <;> cases q <;> first | rfl | exact absurd rfl hne

/-- An insertion that does not know its parent fails in the tree of its purpose. -/
theorem insert_eq_unknownParent {id' parent}
    (h : f.insert eras id validUntil pointer action = .error (.unknownParent id' parent)) :
    ∃ p, action.toProposalEnum.purpose = some p ∧
      (f.tree p).insert id action.toProposalEnum.parent = .error (.unknownParent id' parent) := by
  simp only [insert, Except.bind_eq_error_iff] at h
  rcases h with h | ⟨g, -, h | ⟨epoch, -, h⟩⟩
  · rcases hp : action.toProposalEnum.purpose with - | p
    · simp [insertInTree, hp] at h
    · refine ⟨p, rfl, ?_⟩
      rcases ht : (f.tree p).insert id action.toProposalEnum.parent with e | t
      · simpa [insertInTree, hp, ht] using h
      · simp [insertInTree, hp, ht] at h
  · cases he : eras.slotToEpoch pointer.slot pointer.slot <;> simp [he, Except.mapError] at h
  · cases h

section

variable (f : ProposalsForest) (id : ProposalId) (obsolete : List ProposalId)

theorem get?_pruned_prune (x : ProposalId) :
    (f.prune id obsolete).pruned.get? x =
      if x = id then some .ratified else if x ∈ obsolete then some .notRatified
      else f.pruned.get? x := by
  have hloop : ∀ (l : List ProposalId) (m : SortedMap ProposalId RatificationStatus),
      (l.foldl (fun m id ↦ m.insert id .notRatified) m).get? x =
        if x ∈ l then some .notRatified else m.get? x := by
    intro l
    induction l with
    | nil => simp
    | cons a l ih =>
      intro m
      rw [List.foldl_cons, ih, get?_insert]
      by_cases ha : x = a <;> by_cases hl : x ∈ l <;> simp [ha, hl]
  rw [prune, get?_insert, hloop]

theorem get?_proposals_prune (x : ProposalId) :
    (f.prune id obsolete).proposals.get? x =
      if ((f.prune id obsolete).pruned.get? x).isSome then none else f.proposals.get? x := by
  have h : (f.prune id obsolete).proposals =
      f.proposals.filter fun x _ ↦ !(f.prune id obsolete).pruned.contains x := rfl
  rw [h, get?_filter, contains]
  cases f.proposals.get? x <;> cases (f.prune id obsolete).pruned.get? x <;> rfl

@[simp] theorem tree_prune (p : Purpose) : (f.prune id obsolete).tree p = f.tree p := by
  cases p <;> rfl

end

/-- What a successful enactment does: it prunes the proposal and what became obsolete, and only the
tree of the proposal's purpose changes. -/
def EnactSpec (f f' : ProposalsForest) (id : ProposalId) (purpose : Option Purpose) : Prop :=
  ∃ (g : ProposalsForest) (obsolete : List ProposalId),
    f' = g.prune id obsolete ∧ g.proposals = f.proposals ∧ g.pruned = f.pruned ∧
    g.currentEpoch = f.currentEpoch ∧ g.sequence = f.sequence ∧
    match purpose with
    | some p => ∃ t, (f.tree p).enact id = .ok (t, id, obsolete) ∧
        ∀ q, g.tree q = if q = p then t else f.tree q
    | none => obsolete = [] ∧ ∀ q, g.tree q = f.tree q

theorem enactSpec_of_enactIn {p} (h : f.enactIn p id = .ok f') : EnactSpec f f' id (some p) := by
  simp only [enactIn, bind_eq_ok_iff] at h
  obtain ⟨⟨t, id', obsolete⟩, henact, h⟩ := h
  obtain rfl := ProposalsTree.enact_id henact
  cases h
  refine ⟨_, obsolete, rfl, by simp, by simp, by simp, by simp, t, henact, fun q ↦ ?_⟩
  rw [← f.tree_setTree t p q]
  cases q <;> rfl

theorem enactSpec_of_enact (h : f.enact id proposal = .ok f') : EnactSpec f f' id proposal.purpose := by
  cases proposal with
  | protocolParameters | hardFork | constitutionalCommittee | constitution => exact enactSpec_of_enactIn h
  | orphan orphan =>
    simp only [enact] at h
    split_ifs at h
    cases h
    exact ⟨_, [], rfl, rfl, rfl, rfl, rfl, rfl, fun q ↦ by cases q <;> rfl⟩

/-- What looking for a candidate does: a candidate is a proposal of the forest that is to be voted on,
and is taken out of the sequence, after those that are passed over. -/
theorem nextOf_spec (f : ProposalsForest) (protocolParameters : ProtocolParameters) {context} :
    ∀ {sequence},
      (f.nextOf protocolParameters sequence).1 = some (id, context) →
        f.proposals.get? id = some context ∧ f.step context protocolParameters = true ∧
          ∃ skipped, sequence = skipped ++ id :: (f.nextOf protocolParameters sequence).2
  | [], h => by cases h
  | first :: sequence, h => by
    have hskip : (f.nextOf protocolParameters sequence).1 = some (id, context) →
        f.proposals.get? id = some context ∧ f.step context protocolParameters = true ∧
          ∃ skipped, first :: sequence =
            skipped ++ id :: (f.nextOf protocolParameters sequence).2 := fun h ↦ by
      obtain ⟨hget, hstep, skipped, hsplit⟩ := f.nextOf_spec protocolParameters h
      exact ⟨hget, hstep, first :: skipped, congrArg (first :: ·) hsplit⟩
    rw [nextOf] at h ⊢
    rcases hfirst : f.proposals.get? first with - | context
    · rw [hfirst] at h
      exact hskip h
    rw [hfirst] at h
    dsimp only at h ⊢
    split_ifs at h ⊢ with hstep
    · cases h
      exact ⟨hfirst, hstep, [], rfl⟩
    · exact hskip h

/-- **What yielding a proposal does**: the round is not interrupted, the proposal is fit to be voted on,
and only the sequence changes. -/
structure Yields (f f' : ProposalsForest) (protocolParameters : ProtocolParameters) (id : ProposalId)
    (c : WithContext ProposalEnum) : Prop where
  not_interrupted : f.isInterrupted = false
  step : f.step c protocolParameters = true
  get?_eq : f.proposals.get? id = some c
  exists_skipped : ∃ skipped, f.sequence = skipped ++ id :: f'.sequence
  eq : f' = { f with sequence := f'.sequence }

theorem yields_of_next {c protocolParameters} (h : f.next protocolParameters = (some (id, c), f')) :
    Yields f f' protocolParameters id c := by
  rw [next] at h
  split_ifs at h with hinterrupted
  · cases (Prod.mk.inj h).1
  · obtain ⟨hcandidate, rfl⟩ := Prod.mk.inj h
    obtain ⟨hget, hstep, hsplit⟩ := f.nextOf_spec protocolParameters hcandidate
    exact ⟨Bool.eq_false_iff.2 hinterrupted, hstep, hget, hsplit, rfl⟩

section

variable (f : ProposalsForest) (protocolParameters : ProtocolParameters)

theorem proposals_next : (f.next protocolParameters).2.proposals = f.proposals := by
  rw [next]
  split_ifs <;> rfl

theorem next_keeps :
    (f.next protocolParameters).2.roots = f.roots ∧ (f.next protocolParameters).2.pruned = f.pruned := by
  rw [next]
  split_ifs <;> exact ⟨rfl, rfl⟩

end

theorem length_sequence_enact (h : f.enact id proposal = .ok f') :
    f'.sequence.length ≤ f.sequence.length := by
  obtain ⟨g, obsolete, rfl, -, -, -, hseq, -⟩ := enactSpec_of_enact h
  rw [← hseq]
  exact List.length_filter_le _ _

theorem roots_congr {g : ProposalsForest} (h : ∀ p, (f.tree p).root = (g.tree p).root) :
    f.roots = g.roots := by
  rw [roots, roots, ProposalsRoots.mk.injEq]
  exact ⟨h .protocolParameters, h .hardFork, h .constitutionalCommittee, h .constitution⟩

theorem drain_keeps {rows} (h : f.drain eras rows = .ok f') : f'.roots = f.roots ∧ f'.pruned = f.pruned := by
  refine foldlM_invariant h ⟨rfl, rfl⟩ ?_
  rintro done row g g' ⟨hroots, hpruned⟩ hstep
  rw [drainStep] at hstep
  split_ifs at hstep
  obtain ⟨-, hpr, -, htree⟩ := insert_eq_ok hstep
  refine ⟨(roots_congr fun p ↦ ?_).trans hroots, hpr.trans hpruned⟩
  by_cases hp : row.2.governanceAction.toProposalEnum.purpose = some p
  · exact (ProposalsTree.insert_edges ((htree p).1 hp)).2.1
  · rw [(htree p).2 hp]

end ProposalsForest

end Amaru
