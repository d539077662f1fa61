import Amaru.Data.FiniteSums
import Amaru.Ledger.Governance.Ratification

/-!
# What a round enacts

A round yields proposals one after the other; each is accepted and enacted at once, or refused. `Run`
records them as **passes**, with the forest each was taken from.

Along a run the sequence only shrinks, the treasury of the forest is what the withdrawals left of it, and
a proposal that was pruned is in the table no more, so that what is said of it once stays said. The run
stops at the first delaying action it enacts.

The treasury is checked against a **saturating** sum of what a proposal withdraws. That is the sum itself
for every treasury below the largest amount there is.
-/

namespace Amaru

open ProposalsForest List Prod SortedMap Except Nat

/-! ### Proposals -/

namespace ProposalEnum

/-- Whether enacting a proposal postpones all others to the next round. -/
def isDelaying (proposal : ProposalEnum) : Bool := proposal.purpose.any interrupts

/-- What a proposal takes out of the treasury. -/
def withdrawn : ProposalEnum → ℕ
  | orphan (.treasuryWithdrawal withdrawals) => withdrawals.values.sum
  | _ => 0

/-- The rank of a proposal's priority: 0 comes first. -/
def rank : ProposalEnum → ℕ
  | constitutionalCommittee .noConfidence _ => 0
  | constitutionalCommittee (.changeMembers ..) _ => 1
  | constitution _ _ => 2
  | hardFork _ _ => 3
  | protocolParameters _ _ => 4
  | orphan (.treasuryWithdrawal _) => 5
  | orphan .nicePoll => 6

theorem cmpPriority_eq (a b : ProposalEnum) : a.cmpPriority b = compare b.rank a.rank := by
  rcases a with _ | _ | ⟨_ | _, _⟩ | _ | (_ | _) <;> rcases b with _ | _ | ⟨_ | _, _⟩ | _ | (_ | _) <;> rfl

end ProposalEnum

/-! ### One pass -/

namespace ProposalsForest

variable {f f' : ProposalsForest} {id : ProposalId} {c : WithContext ProposalEnum}
  {protocolParameters : ProtocolParameters} {eras : EraHistory} {proposal : ProposalEnum}
  {p : Purpose}

theorem parent_eq_root_of_step (h : f.step c protocolParameters = true)
    (hp : c.proposal.purpose = some p) : c.proposal.parent = (f.tree p).root := by
  rw [step] at h
  split_ifs at h
  cases hc : c.proposal with
  | orphan _ => rw [hc] at hp; cases hp
  | protocolParameters | hardFork | constitutionalCommittee | constitution =>
    rw [hc] at h hp
    cases hp
    exact beq_iff_eq.1 h

theorem foldl_saturating_eq (bound : ℕ) : ∀ (l : List ℕ) {total}, total ≤ bound →
    l.foldl (fun total n ↦ min (total + n) bound) total = min (total + l.sum) bound
  | [], total, h => by simp [h]
  | n :: l, total, _ => by
    rw [foldl_cons, foldl_saturating_eq bound l (min_le_right _ _), sum_cons]
    omega

/-- The largest amount. -/
def maxLovelace : ℕ := 2 ^ 64 - 1

theorem withdrawn_le_of_step (htreasury : f.treasury < maxLovelace)
    (h : f.step c protocolParameters = true) : c.proposal.withdrawn ≤ f.treasury := by
  rw [step] at h
  split_ifs at h with _ himpossible _
  cases hc : c.proposal with
  | orphan orphan =>
    cases orphan with
    | nicePoll => exact zero_le _
    | treasuryWithdrawal withdrawals =>
      rw [hc, isImpossibleWithdrawal, foldl_saturating_eq _ _ (zero_le _)] at himpossible
      rw [maxLovelace] at htreasury
      simp only [decide_eq_true_eq] at himpossible
      change withdrawals.values.sum ≤ f.treasury
      omega
  | _ => exact zero_le _

/-- What enacting does to the flag, the treasury and the sequence. -/
structure EnactKeeps (f f' : ProposalsForest) (proposal : ProposalEnum) : Prop where
  isInterrupted_eq : f'.isInterrupted = (f.isInterrupted || proposal.isDelaying)
  treasury_eq : f'.treasury = f.treasury - proposal.withdrawn
  sequence_sublist : f'.sequence.Sublist f.sequence

theorem foldl_sub_eq (withdrawals : SortedMap Credential ℕ) (treasury : ℕ) :
    withdrawals.entries.foldl (fun treasury e ↦ treasury - e.2) treasury =
      treasury - withdrawals.values.sum := by
  have hloop : ∀ (l : List (Credential × ℕ)) (treasury : ℕ),
      l.foldl (fun treasury e ↦ treasury - e.2) treasury = treasury - (l.map snd).sum := by
    intro l
    induction l with
    | nil => intro treasury; rfl
    | cons e l ih =>
      intro treasury
      rw [foldl_cons, ih, map_cons, sum_cons, Nat.sub_sub]
  exact hloop _ _

theorem enactKeeps_of_enactIn (hp : proposal.purpose = some p)
    (h : f.enactIn p id = .ok f') : EnactKeeps f f' proposal := by
  obtain ⟨⟨t, id', obsolete⟩, -, h⟩ := bind_eq_ok_iff.1 h
  cases h
  have hwithdrawn : proposal.withdrawn = 0 := by
    cases proposal with
    | orphan _ => cases hp
    | _ => rfl
  refine ⟨?_, ?_, ?_⟩
  · rw [ProposalEnum.isDelaying, hp]
    rfl
  · rw [hwithdrawn, Nat.sub_zero]
    cases p <;> rfl
  · refine (filter_sublist).trans ?_
    cases p <;> exact List.Sublist.refl _

theorem enactKeeps_of_enact (h : f.enact id proposal = .ok f') : EnactKeeps f f' proposal := by
  cases proposal with
  | protocolParameters | hardFork | constitutionalCommittee | constitution =>
    exact enactKeeps_of_enactIn rfl h
  | orphan orphan =>
    simp only [enact] at h
    split_ifs at h
    cases h
    refine ⟨(Bool.or_false _).symm, ?_, filter_sublist⟩
    cases orphan with
    | nicePoll => rfl
    | treasuryWithdrawal withdrawals => exact foldl_sub_eq withdrawals f.treasury

/-! ### The sequence of a new forest -/

theorem perm_priorityInsert (proposals : SortedMap ProposalId (WithContext ProposalEnum))
    (newId : ProposalId) (newPointer : ProposalPointer) (newProposal : ProposalEnum) :
    ∀ sequence : List ProposalId,
      (priorityInsert proposals newId newPointer newProposal sequence).Perm (newId :: sequence)
  | [] => .refl _
  | first :: sequence => by
    have hlater : (first :: priorityInsert proposals newId newPointer newProposal sequence).Perm
        (newId :: first :: sequence) :=
      ((perm_priorityInsert proposals newId newPointer newProposal sequence).cons first).trans (.swap ..)
    rw [priorityInsert]
    rcases proposals.get? first with - | context
    · exact hlater
    dsimp only
    cases context.proposal.cmpPriority newProposal with
    | lt => exact .refl _
    | gt => exact hlater
    | eq =>
      split_ifs
      · exact .refl _
      · exact hlater

variable {rows : List (ProposalId × CandidateProposal)} {treasury epoch : ℕ}

/-- **A new forest considers each proposal once**, with the treasury it was given. -/
theorem sequence_of_drain {roots} (h : (new epoch roots treasury).drain eras rows = .ok f) :
    f.sequence.Perm (rows.map fst) ∧ f.treasury = treasury ∧ f.isInterrupted = false := by
  have hrun : f.sequence.Perm ((drainOrder rows).map fst) ∧ f.treasury = treasury ∧
      f.isInterrupted = false := by
    refine foldlM_invariant h ⟨.refl _, rfl, rfl⟩ ?_
    rintro done row g g' ⟨hsequence, htreasury, hinterrupted⟩ hstep
    rw [drainStep] at hstep
    split_ifs at hstep
    obtain ⟨-, -, ⟨hsequence', htreasury', hinterrupted'⟩, -⟩ := insert_eq_ok hstep
    refine ⟨?_, htreasury'.trans htreasury, hinterrupted'.trans hinterrupted⟩
    rw [map_append, hsequence']
    exact ((perm_priorityInsert _ _ _ _ _).trans (hsequence.cons _)).trans
      (perm_append_singleton _ _).symm
  exact ⟨hrun.1.trans ((drainOrder_perm rows).map _), hrun.2⟩

/-! ### Every order of insertion gives the same sequence -/

/-- Insert proposals in the order they are given. -/
def insertAll (f : ProposalsForest) (eras : EraHistory) (rows : List (ProposalId × CandidateProposal)) :
    Except (ProposalsInsertError ProposalId) ProposalsForest :=
  rows.foldlM (fun f row ↦
    f.insert eras row.1 row.2.validUntil row.2.proposedIn row.2.governanceAction) f

/-- The order of the candidates: by decreasing priority, then by increasing pointer. -/
def Before (a b : ProposalId × CandidateProposal) : Prop :=
  a.2.proposal.cmpPriority b.2.proposal = .gt ∨
    a.2.proposal.cmpPriority b.2.proposal = .eq ∧ a.2.proposedIn < b.2.proposedIn

/-- Where a candidate stands in that order. -/
def place (row : ProposalId × CandidateProposal) : ℕ ×ₗ ProposalPointer :=
  toLex (row.2.proposal.rank, row.2.proposedIn)

theorem before_iff {a b} : Before a b ↔ place a < place b := by
  rw [Before, ProposalEnum.cmpPriority_eq, compare_gt_iff_gt, compare_eq_iff_eq, place, place,
    Prod.Lex.toLex_lt_toLex, eq_comm]

/-- The row of a table is the one that was inserted. -/
def Holds (proposals : SortedMap ProposalId (WithContext ProposalEnum))
    (row : ProposalId × CandidateProposal) : Prop :=
  ∃ c, proposals.get? row.1 = some c ∧ c.proposal = row.2.proposal ∧ c.pointer = row.2.proposedIn

theorem priorityInsert_eq {proposals row} : ∀ {sorted : List (ProposalId × CandidateProposal)},
      (∀ b ∈ sorted, Holds proposals b ∧ b.2.proposedIn ≠ row.2.proposedIn) →
      priorityInsert proposals row.1 row.2.proposedIn row.2.proposal (sorted.map fst) =
        (sorted.orderedInsert (place · ≤ place ·) row).map fst
  | [], _ => rfl
  | b :: sorted, h => by
    obtain ⟨⟨⟨c, hget, hproposal, hpointer⟩, hne⟩, h⟩ := forall_mem_cons.1 h
    rw [map_cons, priorityInsert, hget, orderedInsert_cons, priorityInsert_eq h]
    simp only [hproposal, hpointer, ProposalEnum.cmpPriority_eq, place, Prod.Lex.toLex_le_toLex]
    rcases lt_trichotomy row.2.proposal.rank b.2.proposal.rank with hlt | heq | hgt
    · simp [compare_lt_iff_lt.2 hlt, hlt]
    · simp only [heq, compare_eq_iff_eq.2, lt_irrefl, true_and, false_or, hne.symm.le_iff_lt]
      split_ifs <;> rfl
    · simp [compare_gt_iff_gt.2 hgt, hgt.not_gt, hgt.ne']

/-- **The sequence of a forest is its proposals, sorted**, in whatever order they were inserted. -/
theorem sequence_of_insertAll {roots inserted} (hrows : Admissible roots rows) (hperm : inserted.Perm rows)
    (h : (new epoch roots treasury).insertAll eras inserted = .ok f) :
    f.sequence = (rows.insertionSort (place · ≤ place ·)).map fst := by
  have hrun := foldlM_invariant (P := fun (done : List (ProposalId × CandidateProposal)) f ↦
      done <+: inserted → (∀ row ∈ done, Holds f.proposals row) ∧
        f.sequence = (done.reverse.insertionSort (place · ≤ place ·)).map fst)
    h (fun _ ↦ ⟨by simp, rfl⟩) ?_
  · rw [(hrun (prefix_refl _)).2]
    refine congrArg _ (Perm.eq_of_pairwise (fun a b ha hb hab hba ↦ ?_) (pairwise_insertionSort _ _)
      (pairwise_insertionSort _ _)
      ((perm_insertionSort _ _).trans (((reverse_perm _).trans hperm).trans (perm_insertionSort _ _).symm)))
    exact inj_on_of_nodup_map hrows.nodup_pointers
      (hperm.subset (mem_reverse.1 ((perm_insertionSort _ _).subset ha)))
      ((perm_insertionSort _ _).subset hb) (Prod.mk.inj (toLex.injective (hab.antisymm hba))).2
  rintro done row g g' ih hstep hinit
  have hadmissible := hrows.of_initial hperm hinit
  obtain ⟨hholds, hsequence⟩ := ih ((prefix_append _ _).trans hinit)
  obtain ⟨⟨epoch, hproposals⟩, -, ⟨hsequence', -⟩, -⟩ := insert_eq_ok hstep
  have hnew : ∀ b ∈ done, b.1 ≠ row.1 ∧ b.2.proposedIn ≠ row.2.proposedIn := by
    intro b hb
    have hids := hadmissible.nodup_ids
    have hpointers := hadmissible.nodup_pointers
    rw [map_append] at hids hpointers
    exact ⟨fun heq ↦ disjoint_of_nodup_append hids (mem_map_of_mem hb) (heq ▸ mem_singleton_self _),
      fun heq ↦ disjoint_of_nodup_append hpointers (mem_map_of_mem hb) (heq ▸ mem_singleton_self _)⟩
  refine ⟨fun b hb ↦ ?_, ?_⟩
  · rw [Holds, hproposals, get?_insert]
    rcases mem_append.1 hb with hb | hb
    · rw [if_neg (hnew b hb).1]
      exact hholds b hb
    · obtain rfl := mem_singleton.1 hb
      exact ⟨_, if_pos rfl, rfl, rfl⟩
  · rw [hsequence', hsequence, reverse_append]
    refine priorityInsert_eq fun b hb ↦ ?_
    have hb : b ∈ done := mem_reverse.1 ((perm_insertionSort _ _).subset hb)
    exact ⟨hholds b hb, (hnew b hb).2⟩

/-- **Whatever the order of the insertions, the candidates are the proposals by decreasing priority and
increasing pointer; and enacting splits a tree** into the new root, what descends from it, and the
pruned rest. -/
theorem candidates_are_ordered_and_trees_split :
    (∀ {epoch treasury : ℕ} {roots : ProposalsRoots} {eras : EraHistory}
      {rows : List (ProposalId × CandidateProposal)}, Admissible roots rows →
      ∃ sorted : List (ProposalId × CandidateProposal), sorted.Perm rows ∧ sorted.Pairwise Before ∧
        ∀ {inserted f}, inserted.Perm rows →
          (new epoch roots treasury).insertAll eras inserted = .ok f → f.sequence = sorted.map fst) ∧
    ∀ {T : Type} [DecidableEq T] {t : ProposalsTree T} {id : T}, t.Built →
      ((∃ result, t.enact id = .ok result) ↔ id ∈ t.siblings.map Sibling.id) ∧
      ∀ {t' id' pruned}, t.enact id = .ok (t', id', pruned) →
        id' = id ∧ t'.root = some id ∧ (id :: (t'.ids ++ pruned)).Perm t.ids ∧
          (id :: (t'.ids ++ pruned)).Nodup ∧ ∀ x, x ∈ t'.ids ↔ Relation.TransGen t.IsChild id x := by
  refine ⟨fun {epoch treasury roots eras rows} hrows ↦ ?_, fun {T _ t id} ht ↦ ?_⟩
  · have hperm := perm_insertionSort (place · ≤ place ·) rows
    refine ⟨_, hperm, ?_, fun hins h ↦ sequence_of_insertAll hrows hins h⟩
    have hpointers := pairwise_map.1 ((hperm.map _).nodup_iff.2 hrows.nodup_pointers)
    refine ((pairwise_insertionSort _ _).and hpointers).imp fun ⟨hle, hne⟩ ↦ before_iff.2 ?_
    exact hle.lt_of_ne fun heq ↦ hne (Prod.mk.inj (toLex.injective heq)).2
  · refine ⟨t.exists_enact, fun {t' id' pruned} h ↦ ?_⟩
    obtain ⟨hids, hnodup⟩ := ht.distinct.ids_enact h
    exact ⟨ProposalsTree.enact_id h, (ProposalsTree.enact_edges ht.distinct.nodup_ids h).1, hids.symm, hnodup,
      fun x ↦ ht.distinct.mem_ids_enact h⟩

/-- A piece of information, and a motion of no confidence that is submitted later. -/
def informationFirst : List (ProposalId × CandidateProposal) :=
  [(⟨1, 0⟩, ⟨9, ⟨⟨30, 0⟩, 0⟩, .information⟩), noConfidenceRow 2 40 6 none]

/-- The motion comes first. And if 2 is a child of 1, and 3 is not, then 2 is kept when 1 is enacted. -/
theorem candidates_are_ordered_and_trees_split_informationFirst :
    (∃ f sorted, (new 3 {} 0).insertAll tenSlotEpochs informationFirst = .ok f ∧
      List.Perm sorted informationFirst ∧ sorted.Pairwise Before ∧ f.sequence = sorted.map fst ∧
      f.sequence = [⟨2, 0⟩, ⟨1, 0⟩]) ∧
    ∃ t t' : ProposalsTree ℕ, t.Built ∧ t.enact 1 = .ok (t', 1, [3]) ∧ t'.ids = [2] ∧
      (1 :: (t'.ids ++ [3])).Perm t.ids ∧ Relation.TransGen t.IsChild 1 2 := by
  constructor
  · have hadm : Admissible {} informationFirst := ⟨by decide, by decide, by rintro (_ | _ | _ | _) _ ⟨⟩⟩
    obtain ⟨sorted, hperm, hbefore, hsequence⟩ := candidates_are_ordered_and_trees_split.1 hadm
    have hinsert : (new 3 {} 0).insertAll tenSlotEpochs informationFirst = .ok _ := rfl
    exact ⟨_, sorted, hinsert, hperm, hbefore, hsequence .rfl hinsert, rfl⟩
  · have hone : ProposalsTree.Built _ := .insert (.new none) nofun
      (rfl : (ProposalsTree.new (none : Option ℕ)).insert 1 none = .ok _)
    have htwo := hone.insert nofun (rfl : ProposalsTree.insert _ 2 (some 1) = .ok _)
    have hthree := htwo.insert nofun (rfl : ProposalsTree.insert _ 3 none = .ok _)
    obtain ⟨-, -, hperm, -, hkept⟩ := (candidates_are_ordered_and_trees_split.2 hthree).2
      (rfl : ProposalsTree.enact _ 1 = .ok _)
    exact ⟨_, _, hthree, rfl, rfl, hperm, (hkept 2).1 (by decide)⟩

end ProposalsForest

/-! ### Runs -/

namespace RatificationContext

variable {pruned : SortedMap ProposalId RatificationStatus}

/-- A proposal that was yielded, the forest it was taken from, and whether it was enacted. -/
structure Pass where
  forest : ProposalsForest
  id : ProposalId
  context : WithContext ProposalEnum
  enacted : Bool

/-- The passes of a round, up to the context and the forest it ends with. -/
inductive Run : RatificationContext → ProposalsForest → List Pass → RatificationContext →
    ProposalsForest → Prop
  /-- No proposal is left. -/
  | done {ctx f f'} (hnext : f.next ctx.protocolParameters = (none, f')) : Run ctx f [] ctx f'
  /-- The next proposal is refused. -/
  | refused {ctx ctx' f g f' id c passes} (hnext : f.next ctx.protocolParameters = (some (id, c), g))
    (hrefused : ctx.isAcceptedByEveryone id c.proposal = false) (after : Run ctx g passes ctx' f') :
    Run ctx f (⟨g, id, c, false⟩ :: passes) ctx' f'
  /-- The next proposal is accepted and enacted. -/
  | enacted {ctx ctx' f g enacted f' id c passes} (hnext : f.next ctx.protocolParameters = (some (id, c), g))
    (haccepted : ctx.isAcceptedByEveryone id c.proposal = true) (henact : g.enact id c.proposal = .ok enacted)
    (after : Run (ctx.enactProposal c.proposal) enacted passes ctx' f') :
    Run ctx f (⟨g, id, c, true⟩ :: passes) ctx' f'

/-- **The loop makes a run.** -/
theorem exists_run_of_ratifyLoop (n : ℕ) : ∀ {ctx ctx'}
    {f f'}, f.sequence.length ≤ n → ratifyLoop n ctx f = .ok (ctx', f') →
      ∃ passes, Run ctx f passes ctx' f' := by
  induction n with
  | zero =>
    intro ctx ctx' f f' hlen h
    -- one more pass would find nothing
    rw [← ratifyLoop_succ 0 ctx f hlen, ratifyLoop] at h
    rcases hnext : f.next ctx.protocolParameters with ⟨_ | ⟨id, c⟩, g⟩
    · rw [hnext] at h
      cases h
      exact ⟨[], .done hnext⟩
    · obtain ⟨skipped, hsplit⟩ := (yields_of_next hnext).exists_skipped
      rw [hsplit, length_append, length_cons] at hlen
      omega
  | succ n ih =>
    intro ctx ctx' f f' hlen h
    rw [ratifyLoop] at h
    rcases hnext : f.next ctx.protocolParameters with ⟨_ | ⟨id, c⟩, g⟩
    · rw [hnext] at h
      cases h
      exact ⟨[], .done hnext⟩
    obtain ⟨skipped, hsplit⟩ := (yields_of_next hnext).exists_skipped
    rw [hsplit, length_append, length_cons] at hlen
    rw [hnext] at h
    dsimp only at h
    split_ifs at h with haccepted
    · rcases henact : g.enact id c.proposal with e | enacted
      · simp [henact] at h
      · rw [henact] at h
        have hle := length_sequence_enact henact
        obtain ⟨passes, hrun⟩ := ih (by omega) h
        exact ⟨_, .enacted hnext haccepted henact hrun⟩
    · obtain ⟨passes, hrun⟩ := ih (by omega) h
      exact ⟨_, .refused hnext (Bool.eq_false_iff.2 haccepted) hrun⟩

/-- What the enacted proposals withdraw. -/
def withdrawnBy (passes : List Pass) : ℕ :=
  ((passes.filter (·.enacted)).map fun pass ↦ pass.context.proposal.withdrawn).sum

theorem withdrawnBy_cons (pass : Pass) (passes : List Pass) :
    withdrawnBy (pass :: passes) =
      (if pass.enacted then pass.context.proposal.withdrawn else 0) + withdrawnBy passes := by
  cases h : pass.enacted <;> simp [withdrawnBy, h]

theorem sum_addWithdrawals (total withdrawals : SortedMap Credential ℕ) :
    (addWithdrawals total withdrawals).values.sum = total.values.sum + withdrawals.values.sum := by
  have hloop : ∀ (l : List (Credential × ℕ)) (total : SortedMap Credential ℕ),
      (l.foldl (fun total e ↦ total.alter e.1 fun balance ↦ some (balance.getD 0 + e.2))
        total).sumBy (fun _ amount ↦ amount) =
        total.sumBy (fun _ amount ↦ amount) + (l.map snd).sum := by
    intro l
    induction l with
    | nil => intro total; rfl
    | cons e l ih =>
      intro total
      have hone : (total.alter e.1 fun balance ↦ some (balance.getD 0 + e.2)).sumBy
          (fun _ amount ↦ amount) = total.sumBy (fun _ amount ↦ amount) + e.2 := by
        rw [alter]
        rcases hget : total.get? e.1 with - | balance
        · rw [sumBy_insert_of_none _ _ hget, Option.getD_none]
          omega
        · rw [sumBy_insert, sumBy_erase _ hget, Option.getD_some]
          omega
      rw [foldl_cons, ih, hone, map_cons, sum_cons]
      omega
  exact hloop withdrawals.entries total

theorem sum_withdrawals_enactProposal (ctx : RatificationContext) (proposal : ProposalEnum) :
    (ctx.enactProposal proposal).withdrawals.values.sum =
      ctx.withdrawals.values.sum + proposal.withdrawn := by
  cases proposal with
  | constitutionalCommittee update parent => cases update <;> rfl
  | orphan orphan =>
    cases orphan with
    | nicePoll => rfl
    | treasuryWithdrawal withdrawals => exact sum_addWithdrawals ctx.withdrawals withdrawals
  | _ => rfl

namespace Run

variable {ctx ctx' : RatificationContext} {f f' : ProposalsForest} {passes : List Pass}
  {rows : List (ProposalId × CandidateProposal)}

/-- **A run is a round of its forest.** -/
theorem round (h : Run ctx f passes ctx' f') : Round f f' := by
  have hmove : ∀ {f g : ProposalsForest} {ctx : RatificationContext} {candidate},
      f.next ctx.protocolParameters = (candidate, g) → Move f g := by
    intro f g ctx candidate hnext
    have hmove := Move.next f ctx.protocolParameters
    rwa [hnext] at hmove
  induction h with
  | done hnext => exact .single (hmove hnext)
  | refused hnext _ _ ih => exact .head (hmove hnext) ih
  | enacted hnext _ henact _ ih =>
    have hyields := yields_of_next hnext
    exact .head (hmove hnext) (.head (.enact (hyields.eq ▸ hyields.get?_eq) henact) ih)

/-- An interrupted round is over. -/
theorem eq_nil (h : Run ctx f passes ctx' f') (hinterrupted : f.isInterrupted = true) : passes = [] := by
  cases h with
  | done _ => rfl
  | refused hnext _ _ | enacted hnext _ _ _ =>
    rw [(yields_of_next hnext).not_interrupted] at hinterrupted
    cases hinterrupted

/-- **Nothing is yielded after a delaying action is enacted.** -/
theorem eq_nil_of_delaying (h : Run ctx f passes ctx' f') : ∀ before pass after,
    passes = before ++ pass :: after → pass.enacted = true →
      pass.context.proposal.isDelaying = true → after = [] := by
  induction h with
  | done _ => exact fun before pass after h ↦ absurd h (by simp)
  | refused _ _ _ ih =>
    intro before pass after hsplit henacted hdelaying
    rcases before with - | ⟨first, before⟩
    · obtain ⟨rfl, rfl⟩ := cons.inj hsplit
      cases henacted
    · exact ih before pass after (cons.inj hsplit).2 henacted hdelaying
  | enacted _ _ henact hafter ih =>
    intro before pass after hsplit henacted hdelaying
    rcases before with - | ⟨first, before⟩
    · obtain ⟨rfl, rfl⟩ := cons.inj hsplit
      refine hafter.eq_nil ?_
      rw [(enactKeeps_of_enact henact).isInterrupted_eq, hdelaying, Bool.or_true]
    · exact ih before pass after (cons.inj hsplit).2 henacted hdelaying

/-- **What is yielded hangs under the root of its purpose.** -/
theorem parent_eq_root (h : Run ctx f passes ctx' f') : ∀ pass ∈ passes, ∀ p,
    pass.context.proposal.purpose = some p → pass.context.proposal.parent = (pass.forest.tree p).root := by
  have hstep : ∀ {f g : ProposalsForest} {ctx : RatificationContext} {id : ProposalId}
      {c : WithContext ProposalEnum}, f.next ctx.protocolParameters = (some (id, c), g) →
      ∀ p, c.proposal.purpose = some p → c.proposal.parent = (g.tree p).root := by
    intro f g ctx id c hnext p hp
    have hyields := yields_of_next hnext
    rw [parent_eq_root_of_step hyields.step hp, hyields.eq]
    cases p <;> rfl
  induction h with
  | done _ => exact fun pass hpass ↦ absurd hpass not_mem_nil
  | refused hnext _ _ ih | enacted hnext _ _ _ ih => exact forall_mem_cons.2 ⟨hstep hnext, ih⟩

/-- What comes after a proposal that leaves the sequence does not yield it again. -/
theorem nodup_cons {pass : Pass} {skipped rest later : List ProposalId}
    (hnodup : (skipped ++ pass.id :: rest).Nodup) (hlater : later.Sublist rest)
    (hafter : later.Nodup → (passes.map (·.id)).Nodup ∧ ∀ pass ∈ passes, pass.id ∈ later) :
    ((pass :: passes).map (·.id)).Nodup ∧ ∀ p ∈ pass :: passes, p.id ∈ skipped ++ pass.id :: rest := by
  obtain ⟨hid, hrest⟩ := List.nodup_cons.1 (List.nodup_append.1 hnodup).2.1
  obtain ⟨hids, hmem⟩ := hafter (hrest.sublist hlater)
  refine ⟨List.nodup_cons.2 ⟨fun hin ↦ ?_, hids⟩,
    forall_mem_cons.2 ⟨by simp, fun p hp ↦ by simp [hlater.subset (hmem p hp)]⟩⟩
  obtain ⟨p, hp, heq⟩ := List.mem_map.1 hin
  have hin := hlater.subset (hmem p hp)
  rw [heq] at hin
  exact hid hin

/-- **Each proposal is yielded at most once.** -/
theorem nodup (h : Run ctx f passes ctx' f') (hnodup : f.sequence.Nodup) :
    (passes.map (·.id)).Nodup ∧ ∀ pass ∈ passes, pass.id ∈ f.sequence := by
  induction h with
  | done _ => exact ⟨nodup_nil, fun pass hpass ↦ absurd hpass not_mem_nil⟩
  | refused hnext _ _ ih =>
    obtain ⟨skipped, hsplit⟩ := (yields_of_next hnext).exists_skipped
    rw [hsplit] at hnodup ⊢
    exact nodup_cons hnodup (.refl _) ih
  | enacted hnext _ henact _ ih =>
    obtain ⟨skipped, hsplit⟩ := (yields_of_next hnext).exists_skipped
    rw [hsplit] at hnodup ⊢
    exact nodup_cons hnodup (enactKeeps_of_enact henact).sequence_sublist ih

/-- **The treasury of the forest is what the withdrawals left of it.** -/
theorem treasury_add (h : Run ctx f passes ctx' f') (htreasury : f.treasury < maxLovelace) :
    f'.treasury + withdrawnBy passes = f.treasury ∧
      ctx'.withdrawals.values.sum = ctx.withdrawals.values.sum + withdrawnBy passes := by
  induction h with
  | @done ctx f f' hnext =>
    have hkeeps : f'.treasury = f.treasury := by
      rw [ProposalsForest.next] at hnext
      split_ifs at hnext <;> obtain ⟨-, rfl⟩ := Prod.mk.inj hnext <;> rfl
    exact ⟨by rw [hkeeps]; rfl, rfl⟩
  | refused hnext _ _ ih =>
    have heq := congrArg ProposalsForest.treasury (ProposalsForest.yields_of_next hnext).eq
    rw [withdrawnBy_cons, if_neg (by simp), zero_add, ← heq]
    exact ih (heq ▸ htreasury)
  | enacted hnext _ henact _ ih =>
    have hyields := yields_of_next hnext
    have heq := congrArg ProposalsForest.treasury hyields.eq
    dsimp only at heq
    have hle := withdrawn_le_of_step htreasury hyields.step
    have hsub := (enactKeeps_of_enact henact).treasury_eq
    obtain ⟨hrest, hwithdrawals⟩ := ih (by omega)
    rw [sum_withdrawals_enactProposal] at hwithdrawals
    rw [withdrawnBy_cons, if_pos rfl]
    dsimp only
    constructor <;> omega

/-! ### What is said of a proposal stays said -/

theorem next_keeps {g candidate} (hwell : f.WellFormed rows)
    (hnext : f.next ctx.protocolParameters = (candidate, g)) :
    g.WellFormed rows ∧ g.pruned = f.pruned ∧ g.proposals = f.proposals := by
  have hnextWell := hwell.next ctx.protocolParameters
  have hpruned := (f.next_keeps ctx.protocolParameters).2
  have hproposals := f.proposals_next ctx.protocolParameters
  rw [hnext] at hnextWell hpruned hproposals
  exact ⟨hnextWell, hpruned, hproposals⟩

/-- Enacting a proposal says nothing else of what was pruned before. -/
theorem pruned_of_enact {id c} (hwell : f.WellFormed rows) (hget : f.proposals.get? id = some c)
    (henact : f.enact id c.proposal = .ok f') :
    f'.WellFormed rows ∧ (∀ x status, f.pruned.get? x = some status → f'.pruned.get? x = some status) ∧
      ∀ x, f'.pruned.get? x = some .ratified ↔ f.pruned.get? x = some .ratified ∨ id = x := by
  obtain ⟨obsolete, henacted, -, hobsolete, -, -, -⟩ := hwell.enact_edges hget henact
  -- what is pruned now was in the table, so it was not pruned before
  have hnone : ∀ x, x = id ∨ x ∈ obsolete → f.pruned.get? x = none := by
    intro x hx
    by_contra hsome
    have hgone := hwell.pruned_notMem (Option.isSome_iff_ne_none.2 hsome)
    rcases hx with rfl | hx
    · rw [hget] at hgone
      cases hgone
    · have hthere := hobsolete x hx
      rw [hgone] at hthere
      cases hthere
  refine ⟨hwell.enact hget henact, fun x status hx ↦ ?_, fun x ↦ ?_⟩
  · rw [henacted, if_neg, if_neg]
    · exact hx
    · exact fun hobs ↦ by rw [hnone x (.inr hobs)] at hx; cases hx
    · exact fun hid ↦ by rw [hnone x (.inl hid)] at hx; cases hx
  · rw [henacted]
    by_cases hid : x = id
    · simp [hid]
    · by_cases hobs : x ∈ obsolete
      · simp [hid, hobs, hnone x (.inr hobs), Ne.symm hid]
      · simp [hid, hobs, Ne.symm hid]

/-- **Along a run no status changes, and the ratified proposals are those that were enacted.** -/
theorem statuses (h : Run ctx f passes ctx' f') (hwell : f.WellFormed rows) :
    (∀ x status, f.pruned.get? x = some status → f'.pruned.get? x = some status) ∧
      (∀ pass ∈ passes, ∀ x status, pass.forest.pruned.get? x = some status →
        f'.pruned.get? x = some status) ∧
      ∀ x, f'.pruned.get? x = some .ratified ↔ f.pruned.get? x = some .ratified ∨
        ∃ pass ∈ passes, pass.enacted = true ∧ pass.id = x := by
  induction h with
  | done hnext =>
    rw [(next_keeps hwell hnext).2.1]
    exact ⟨fun _ _ h ↦ h, fun pass hpass ↦ absurd hpass not_mem_nil, by simp⟩
  | refused hnext _ _ ih =>
    obtain ⟨hnextWell, hpruned, -⟩ := next_keeps hwell hnext
    obtain ⟨hkept, hpasses, hratified⟩ := ih hnextWell
    rw [← hpruned]
    refine ⟨hkept, forall_mem_cons.2 ⟨hkept, hpasses⟩, fun x ↦ ?_⟩
    rw [hratified]
    simp
  | enacted hnext _ henact _ ih =>
    obtain ⟨hnextWell, hpruned, hproposals⟩ := next_keeps hwell hnext
    have hget := (yields_of_next hnext).get?_eq
    rw [← hproposals] at hget
    obtain ⟨henactedWell, hstays, hnow⟩ := pruned_of_enact hnextWell hget henact
    obtain ⟨hkept, hpasses, hratified⟩ := ih henactedWell
    have hstays' := fun x status hx ↦ hkept x status (hstays x status hx)
    rw [← hpruned]
    refine ⟨hstays', forall_mem_cons.2 ⟨hstays', hpasses⟩, fun x ↦ ?_⟩
    rw [hratified, hnow, or_assoc]
    simp

end Run

/-- The end of a round says nothing else of what was pruned before, and ratifies nothing. -/
theorem pruned_of_ends {f : ProposalsForest}
    (hwell : f.WellFormed rows) (hends : f.Ends pruned) :
    (∀ x status, f.pruned.get? x = some status → pruned.get? x = some status) ∧
      ∀ x, pruned.get? x = some .ratified ↔ f.pruned.get? x = some .ratified := by
  obtain ⟨order, horder, rfl⟩ := hends
  have hkept : ∀ x status, f.pruned.get? x = some status → (f.visit order).get? x = some status := by
    intro x status hx
    refine ((f.get?_visit order x).resolve_right fun h ↦ ?_).trans hx
    have hremaining := horder.mem_map.1 h.1
    have hgone := hwell.pruned_notMem (by rw [hx]; rfl)
    change (f.proposals.get? x).isSome at hremaining
    rw [hgone] at hremaining
    cases hremaining
  refine ⟨hkept, fun x ↦ ⟨fun hratified ↦ ?_, hkept x _⟩⟩
  rcases f.get?_visit order x with h | ⟨-, h⟩
  · exact h.symm.trans hratified
  · cases h.symm.trans hratified

/-! ### Consistent rounds -/

/-- What a round keeps to: in which order it enacts, with which treasury, and what it says of the
proposals. -/
structure Consistent (treasury : ℕ) (passes : List Pass) (ended : ProposalsForest)
    (withdrawals : SortedMap Credential ℕ) (pruned : SortedMap ProposalId RatificationStatus) :
    Prop where
  /-- An enacted proposal hangs under the root that its purpose has at that moment. -/
  parent_eq_root : ∀ pass ∈ passes, pass.enacted = true → ∀ p,
    pass.context.proposal.purpose = some p → pass.context.proposal.parent = (pass.forest.tree p).root
  /-- Nothing comes after an enacted delaying action. -/
  last_of_delaying : ∀ before pass after, passes = before ++ pass :: after → pass.enacted = true →
    pass.context.proposal.isDelaying = true → after = []
  withdrawn_le : withdrawnBy passes ≤ treasury
  /-- What is enacted is what is withdrawn at the boundary. -/
  withdrawals_eq : withdrawals.values.sum = withdrawnBy passes
  yielded_once : (passes.map (·.id)).Nodup
  /-- What is said of a proposal at any moment is what is said in the end. -/
  status_final : ∀ forest ∈ ended :: passes.map (·.forest), ∀ x status,
    forest.pruned.get? x = some status → pruned.get? x = some status
  ratified_iff : ∀ x, pruned.get? x = some .ratified ↔ ∃ pass ∈ passes, pass.enacted = true ∧ pass.id = x

/-- **Every round is consistent**, for a treasury below the largest amount there is. -/
theorem round_consistent {ctx ctx' : RatificationContext} {eras : EraHistory}
    {proposals : List (ProposalId × CandidateProposal)} {roots : ProposalsRoots}
    {forest : ProposalsForest} (hadmissible : Admissible roots proposals)
    (hwithdrawals : ctx.withdrawals = ∅) (htreasury : ctx.treasury < maxLovelace)
    (hround : ctx.ratifyRound eras proposals roots = .ok (ctx', forest))
    (hends : forest.Ends pruned) :
    ∃ built passes, (ProposalsForest.new ctx.epoch roots ctx.treasury).drain eras proposals = .ok built ∧
      Run ctx built passes ctx' forest ∧
      Consistent ctx.treasury passes forest ctx'.withdrawals pruned := by
  rw [ratifyRound] at hround
  rcases hdrain : (ProposalsForest.new ctx.epoch roots ctx.treasury).drain eras proposals with e | built
  · simp [hdrain] at hround
  rw [hdrain] at hround
  obtain ⟨passes, hrun⟩ := exists_run_of_ratifyLoop _ le_rfl hround
  obtain ⟨hsequence, hbuilt, -⟩ := sequence_of_drain hdrain
  have hnodup : built.sequence.Nodup := hsequence.nodup_iff.2 hadmissible.nodup_ids
  obtain ⟨hleft, hsum⟩ := hrun.treasury_add (by rwa [hbuilt])
  have hwell := wellFormed_of_drain hadmissible hdrain
  obtain ⟨-, hpasses, hratified⟩ := hrun.statuses hwell
  obtain ⟨hfinal, hends⟩ := pruned_of_ends (hwell.round hrun.round) hends
  have hnone : built.pruned = ∅ := (drain_keeps hdrain).2
  refine ⟨built, passes, rfl, hrun, ?_⟩
  exact
    { parent_eq_root := fun pass hpass _ ↦ hrun.parent_eq_root pass hpass
      last_of_delaying := hrun.eq_nil_of_delaying
      withdrawn_le := by omega
      withdrawals_eq := by
        rw [hsum, hwithdrawals]
        exact zero_add _
      yielded_once := (hrun.nodup hnodup).1
      status_final := by
        refine forall_mem_cons.2 ⟨hfinal, fun forest hforest x status hx ↦ ?_⟩
        obtain ⟨pass, hpass, rfl⟩ := mem_map.1 hforest
        exact hfinal x status (hpasses pass hpass x status hx)
      ratified_iff := fun x ↦ by rw [hends, hratified, hnone]; simp }

/-! ### Withdrawals that add up to more than there can be -/

/-- A withdrawal of these amounts, to two accounts. -/
def twoWithdrawals (first second : ℕ) : ProposalId × CandidateProposal :=
  (⟨1, 0⟩, { validUntil := 9
             proposedIn := ⟨⟨30, 0⟩, 0⟩
             governanceAction := .treasuryWithdrawals (.ofList
               [(⟨.mainnet, .keyHash 1⟩, first), (⟨.mainnet, .keyHash 2⟩, second)]) none })

/-- A context in which nobody has to vote. -/
def noThresholds (treasury : ℕ) : RatificationContext where
  epoch := 5
  treasury
  stakeDistribution :=
    { epoch := 5, poolsVotingStake := 0, pools := ∅, dreps := ∅, ccUpdate := none }
  protocolParameters := default
  withdrawals := ∅
  constitutionalCommittee := some { threshold := 0, members := ∅ }
  constitutionalCommitteeUpdate := none
  newConstitution := none
  votes := ∅

/-- **From a treasury of the largest amount there is, more is withdrawn than it holds.** The sum
saturates, and the check does not see it. -/
theorem withdrawals_beyond_largest_treasury : ∃ ctx' forest,
    (noThresholds (2 ^ 64 - 1)).ratifyRound tenSlotEpochs
      [twoWithdrawals (2 ^ 63) (2 ^ 63)] {} = .ok (ctx', forest) ∧
    2 ^ 64 - 1 < ctx'.withdrawals.values.sum := by
  refine ⟨_, _, rfl, ?_⟩
  decide

theorem round_consistent_twoWithdrawals : ∃ ctx' forest passes,
    (noThresholds 100).ratifyRound tenSlotEpochs [twoWithdrawals 30 20] {} =
      .ok (ctx', forest) ∧
    Consistent 100 passes forest ctx'.withdrawals forest.end_ := by
  obtain ⟨ctx', forest, hround⟩ : ∃ ctx' forest, (noThresholds 100).ratifyRound
    tenSlotEpochs [twoWithdrawals 30 20] {} = .ok (ctx', forest) := ⟨_, _, rfl⟩
  obtain ⟨-, passes, -, -, hconsistent⟩ := round_consistent
    ⟨by simp, by simp, fun p _ h ↦ by cases p <;> cases h⟩ rfl (by decide) hround forest.ends_end_
  exact ⟨ctx', forest, passes, hround, hconsistent⟩

end RatificationContext

end Amaru
