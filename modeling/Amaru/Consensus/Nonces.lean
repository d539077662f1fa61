import Amaru.Consensus.Walk
import Amaru.Kernel.Calendar

/-!
# Nonces

Every header comes with nonces. The **active** nonce decides who leads the slots of its epoch. Every header
adds to the **evolving** nonce; the **candidate** is a copy that no longer changes in the last slots of an
epoch, where it is frozen. The active nonce of the next epoch is made of the candidate and of the parent of
the last header of the epoch before (the **tail**).

So the nonce of an epoch is **settled** by any header of that epoch, and by any header of the epoch before
whose slot is in the freeze window (`Settles`): all descendants agree on it (`scheduled_of_ancestor`).
-/

namespace Amaru

open EraHistory Option SortedMap Except Nat

/-- The nonces of a header. -/
structure Nonces where
  active : ℕ
  evolving : ℕ
  candidate : ℕ
  /-- The last header of the epoch before. -/
  tail : ℕ
  epoch : ℕ
deriving DecidableEq, Repr

/-- What is given of hashes. -/
structure NonceHash where
  /-- The hash of a candidate nonce and a header hash. -/
  nextActive : ℕ → ℕ → ℕ
  /-- The hash of a nonce and a VRF output. -/
  evolve : ℕ → ℕ → ℕ

/-- The parameters of consensus. -/
structure ConsensusParameters where
  eraHistory : EraHistory
  randomnessStabilizationWindow : ℕ

/-- The epoch of a slot, and whether it is far enough from the end of the epoch for its block to contribute
to the next nonce. -/
def ConsensusParameters.randomnessStabilityWindow (params : ConsensusParameters) (slot : ℕ) :
    Except EraHistoryError (ℕ × Bool) := do
  let epoch ← params.eraHistory.slotToEpoch slot slot
  let nextEpochFirstSlot ← params.eraHistory.nextEpochFirstSlot epoch slot
  .ok (epoch, slot + params.randomnessStabilizationWindow < nextEpochFirstSlot)

/-- The nonces of a header, from those of its parent. There is a parent of the tail if an epoch ends between
them. -/
def evolveNonces (hash : NonceHash) (output : ℕ) (parent : Option ℕ) (parentNonces : Nonces) (epoch : ℕ)
    (isWithinStabilityWindow : Bool) (previousEpochTailParentHash : Option ℕ) : Nonces :=
  let evolving := hash.evolve parentNonces.evolving output
  { epoch
    evolving
    candidate := if isWithinStabilityWindow then evolving else parentNonces.candidate
    active := match previousEpochTailParentHash with
      | some tailParent => hash.nextActive parentNonces.candidate tailParent
      | none => parentNonces.active
    tail := match previousEpochTailParentHash with
      | some _ => parent.getD originHash
      | none => parentNonces.tail }

/-- Why the nonces of a header are not known. -/
inductive NoncesError
  | unknownParent (parent : ℕ)
  | unknownHeader (header : ℕ)
  | eraHistory (error : EraHistoryError)
deriving DecidableEq, Repr

/-- The parent of the last header of the epoch before, if an epoch ends after the parent of a header. -/
def previousEpochTailParent (loadHeader : ℕ → Option Header) (epoch : ℕ) (parentNonces : Nonces) :
    Except NoncesError (Option ℕ) :=
  if epoch > parentNonces.epoch then
    (loadHeader parentNonces.tail).elim (.error (.unknownHeader parentNonces.tail)) fun tail ↦ .ok tail.parent
  else .ok none

/-- The nonces of a header. What is stored is given by two look-ups. -/
def evolveNonce (params : ConsensusParameters) (hash : NonceHash) (getNonces : ℕ → Option Nonces)
    (loadHeader : ℕ → Option Header) (slot : ℕ) (parent : Option ℕ) (output : ℕ) :
    Except NoncesError Nonces := do
  let (epoch, isWithinStabilityWindow) ← (params.randomnessStabilityWindow slot).mapError .eraHistory
  let parentHash := parent.getD originHash
  let parentNonces ← (getNonces parentHash).elim (.error (.unknownParent parentHash)) .ok
  let previousEpochTailParentHash ← previousEpochTailParent loadHeader epoch parentNonces
  .ok (evolveNonces hash output parent parentNonces epoch isWithinStabilityWindow previousEpochTailParentHash)

/-- The nonce that decides who leads the slots of an epoch, as far as a header can tell. -/
def Nonces.scheduled (hash : NonceHash) (loadHeader : ℕ → Option Header) (nonces : Nonces) (epoch : ℕ) : ℕ :=
  if epoch = nonces.epoch then nonces.active
  else hash.nextActive nonces.candidate (((loadHeader nonces.tail).bind Header.parent).getD originHash)

/-! ### Headers with their nonces -/

/-- A calendar in which epochs follow each other. -/
structure ConsensusParameters.Regular (params : ConsensusParameters) : Prop where
  epoch_le : ∀ {slot slot' epoch epoch' within within'}, slot ≤ slot' →
    params.randomnessStabilityWindow slot = .ok (epoch, within) →
    params.randomnessStabilityWindow slot' = .ok (epoch', within') → epoch ≤ epoch'
  frozen : ∀ {slot slot' epoch within'}, slot ≤ slot' →
    params.randomnessStabilityWindow slot = .ok (epoch, false) →
    params.randomnessStabilityWindow slot' = .ok (epoch, within') → within' = false
  epoch_eq : ∀ {slot epoch start next}, epochStart epoch params.eraHistory.eras = .ok start →
    epochStart (epoch + 1) params.eraHistory.eras = .ok next → start ≤ slot → slot < next →
    ∃ within, params.randomnessStabilityWindow slot = .ok (epoch, within)

variable {params : ConsensusParameters} {slot : ℕ}

/-- What the window of a slot says, in terms of where epochs begin. -/
theorem ConsensusParameters.exists_window (hchained : EraHistory.Chained params.eraHistory.eras)
    (hslot : ∀ era eras, params.eraHistory.eras = era :: eras → era.start.slot ≤ slot) :
    ∃ epoch start stop, params.randomnessStabilityWindow slot =
        .ok (epoch, decide (slot + params.randomnessStabilizationWindow < stop)) ∧
      epochStart epoch params.eraHistory.eras = .ok start ∧
      epochStart (epoch + 1) params.eraHistory.eras = .ok stop ∧ start ≤ slot ∧ slot < stop := by
  rcases heras : params.eraHistory.eras with - | ⟨era, eras⟩ <;> rw [heras] at hchained
  · cases hchained
  obtain ⟨epoch, start, stop, hfound, hfrom, hstart, hstop, hle, hlt⟩ := exists_slotToEpoch
    hchained (hslot era eras heras) params.eraHistory.stabilityWindow
  refine ⟨epoch, start, stop, ?_, hstart, hstop, hle, hlt⟩
  rw [randomnessStabilityWindow, slotToEpoch, heras, hfound]
  change (params.eraHistory.nextEpochFirstSlot epoch slot >>= _) = _
  rw [nextEpochFirstSlot, heras, findNextEpochFirstSlot_eq hchained hfrom hstart hle, hstop]
  rfl

/-- A slot whose epoch is known is not before the first era. -/
theorem ConsensusParameters.le_of_window {result} (h : params.randomnessStabilityWindow slot = .ok result)
    (era : EraSummary) (eras : List EraSummary) (heras : params.eraHistory.eras = era :: eras) :
    era.start.slot ≤ slot := by
  obtain ⟨epoch, hepoch, -⟩ := bind_eq_ok_iff.1 h
  rw [slotToEpoch, heras, findEra] at hepoch
  split_ifs at hepoch with hlt
  · exact not_lt.1 hlt
  · exact not_lt.1 hlt

/-- **In a calendar whose eras follow each other, so do the epochs.** -/
theorem ConsensusParameters.Regular.of_chained (hchained : EraHistory.Chained params.eraHistory.eras) :
    params.Regular where
  epoch_le := by
    intro slot slot' epoch epoch' within within' hle h h'
    obtain ⟨_, start, stop, hwindow, hstart, -, hfrom, -⟩ := params.exists_window hchained
      (params.le_of_window h)
    obtain ⟨_, start', stop', hwindow', -, hstop', -, hbefore⟩ :=
      params.exists_window hchained (params.le_of_window h')
    cases h.symm.trans hwindow
    cases h'.symm.trans hwindow'
    by_contra hlt
    have := epochStart_le hchained (Nat.lt_of_not_le hlt) hstop' hstart
    omega
  frozen := by
    intro slot slot' epoch within' hle h h'
    obtain ⟨_, start, stop, hwindow, -, hstop, -, -⟩ := params.exists_window hchained (params.le_of_window h)
    obtain ⟨_, start', stop', hwindow', -, hstop', -, -⟩ := params.exists_window hchained
      (params.le_of_window h')
    obtain ⟨rfl, hfalse⟩ := Prod.mk.inj (ok.inj (h.symm.trans hwindow))
    obtain ⟨rfl, rfl⟩ := Prod.mk.inj (ok.inj (h'.symm.trans hwindow'))
    cases hstop.symm.trans hstop'
    have hnot := of_decide_eq_false hfalse.symm
    exact decide_eq_false (by omega)
  epoch_eq := by
    intro slot epoch start next hstart hnext hle hlt
    have hfirst : ∀ era eras, params.eraHistory.eras = era :: eras → era.start.slot ≤ slot := by
      intro era eras heras
      rw [heras] at hchained hstart
      exact (le_of_epochStart hchained hstart).trans hle
    obtain ⟨epoch', start', stop', hwindow, hstart', hstop', hfrom, hbefore⟩ :=
      params.exists_window hchained hfirst
    obtain rfl : epoch' = epoch := by
      rcases lt_trichotomy epoch' epoch with hlt' | heq | hlt'
      · have := epochStart_le hchained hlt' hstop' hstart
        omega
      · exact heq
      · have := epochStart_le hchained hlt' hnext hstart'
        omega
    exact ⟨_, hwindow⟩

/-- Headers that were validated, with their nonces. The first headers of the tree may be given with nonces of
their own. -/
structure NonceTree (params : ConsensusParameters) (hash : NonceHash) where
  tree : HeaderTree
  nonces : ℕ → Option Nonces
  /-- The VRF output of a header. -/
  output : Header → ℕ
  /-- A header is stored with its nonces, once its parent is. -/
  isSome_of_child : ∀ {p q}, tree.Child p q → (nonces p.hash).isSome → (nonces q.hash).isSome
  /-- The nonces of a header that was validated come from those of its parent. -/
  evolved : ∀ {h header parent n}, tree.header h = some header →
    nonces (header.parent.getD originHash) = some parent → nonces h = some n →
    evolveNonce params hash nonces tree.header header.slot header.parent (output header) = .ok n
  epoch_eq : ∀ {h header n}, tree.header h = some header → nonces h = some n →
    ∃ within, params.randomnessStabilityWindow header.slot = .ok (n.epoch, within)
  /-- The header before an epoch is not the first of all. -/
  tail : ∀ {h header n}, tree.header h = some header → nonces h = some n →
    ∃ tail parent, tree.header n.tail = some tail ∧ tail.parent = some parent

/-- The nonces of a map are as they should be. -/
def NonceTree.Evolved (params : ConsensusParameters) (hash : NonceHash) (headers : SortedMap ℕ Header)
    (nonces : SortedMap ℕ Nonces) (output : Header → ℕ) : Prop :=
  ∀ entry ∈ headers.entries,
    ((nonces.get? (entry.2.parent.getD originHash)).isSome → (nonces.get? entry.1).isSome) ∧
    ∀ n ∈ (nonces.get? entry.1).toList,
      ((nonces.get? (entry.2.parent.getD originHash)).isSome →
        evolveNonce params hash nonces.get? headers.get? entry.2.slot entry.2.parent
          (output entry.2) = .ok n) ∧
      (params.randomnessStabilityWindow entry.2.slot).map Prod.fst = .ok n.epoch ∧
      ((headers.get? n.tail).bind Header.parent).isSome

instance (params : ConsensusParameters) (hash : NonceHash) (headers : SortedMap ℕ Header)
    (nonces : SortedMap ℕ Nonces) (output : Header → ℕ) :
    Decidable (NonceTree.Evolved params hash headers nonces output) :=
  inferInstanceAs (Decidable (∀ entry ∈ headers.entries, _ ∧ _))

/-- The headers of a map, with their nonces. -/
def NonceTree.ofMap {params : ConsensusParameters} {hash : NonceHash} (headers : SortedMap ℕ Header)
    (nonces : SortedMap ℕ Nonces) (output : Header → ℕ) (hlinked : HeaderTree.Linked headers)
    (hevolved : NonceTree.Evolved params hash headers nonces output) : NonceTree params hash where
  tree := .ofMap headers hlinked
  nonces := nonces.get?
  output
  isSome_of_child := by
    rintro p q ⟨header, header', -, -, hheader', -, hparent⟩ hp
    refine (hevolved _ (mem_entries_iff.2 hheader')).1 ?_
    rw [hparent]
    exact hp
  evolved := by
    intro h header parent n hheader hparent hn
    exact ((hevolved _ (mem_entries_iff.2 hheader)).2 n (mem_toList.2 hn)).1
      (isSome_iff_exists.2 ⟨parent, hparent⟩)
  epoch_eq := by
    intro h header n hheader hn
    have hepoch := ((hevolved _ (mem_entries_iff.2 hheader)).2 n (mem_toList.2 hn)).2.1
    obtain ⟨⟨_, within⟩, hwindow, rfl⟩ := map_eq_ok_iff.1 hepoch
    exact ⟨within, hwindow⟩
  tail := by
    intro h header n hheader hn
    have htail := ((hevolved _ (mem_entries_iff.2 hheader)).2 n (mem_toList.2 hn)).2.2
    obtain ⟨parent, hparent⟩ := isSome_iff_exists.1 htail
    obtain ⟨tail, htail, hparent⟩ := bind_eq_some_iff.1 hparent
    exact ⟨tail, parent, htail, hparent⟩

section Evolve

variable {hash : NonceHash} {getNonces : ℕ → Option Nonces}
  {loadHeader : ℕ → Option Header} {epoch : ℕ} {within : Bool} {parent : Option ℕ} {output : ℕ}
  {parentNonces : Nonces}

/-- How the nonces of a header come from those of its parent. -/
theorem evolveNonce_eq (hwindow : params.randomnessStabilityWindow slot = .ok (epoch, within))
    (hparent : getNonces (parent.getD originHash) = some parentNonces) :
    evolveNonce params hash getNonces loadHeader slot parent output =
      (previousEpochTailParent loadHeader epoch parentNonces).map
        (evolveNonces hash output parent parentNonces epoch within) := by
  rw [evolveNonce, hwindow]
  change ((getNonces (parent.getD originHash)).elim (.error _) .ok >>= fun _ ↦ _ :
    Except NoncesError Nonces) = _
  rw [hparent]
  rfl

/-- The header before an epoch is known, so the active nonce is the one that is scheduled. -/
theorem exists_previousEpochTailParent (hash : NonceHash) {tail tailParent} (hle : parentNonces.epoch ≤ epoch)
    (htail : loadHeader parentNonces.tail = some tail) (hparent : tail.parent = some tailParent)
    (within : Bool) (output : ℕ) (parent : Option ℕ) :
    ∃ previous, previousEpochTailParent loadHeader epoch parentNonces = .ok previous ∧
      (evolveNonces hash output parent parentNonces epoch within previous).active =
        parentNonces.scheduled hash loadHeader epoch ∧
      previous = if epoch = parentNonces.epoch then none else some tailParent := by
  refine ⟨_, ?_, ?_, rfl⟩ <;> rcases hle.lt_or_eq with hlt | rfl
  · rw [previousEpochTailParent, if_pos hlt, htail, if_neg hlt.ne', elim_some, hparent]
  · rw [previousEpochTailParent, if_neg (lt_irrefl _), if_pos rfl]
  · rw [Nonces.scheduled, if_neg hlt.ne', if_neg hlt.ne', htail, bind_some, hparent]
    rfl
  · rw [Nonces.scheduled, if_pos rfl, if_pos rfl]
    rfl

end Evolve

section Settles

variable {hash : NonceHash} (forest : NonceTree params hash) {p q : Point} {e : ℕ} {n n' : Nonces}

/-- A header settles the nonce of an epoch. -/
def NonceTree.Settles (p : Point) (e : ℕ) : Prop :=
  ∃ n within, forest.nonces p.hash = some n ∧
    params.randomnessStabilityWindow p.slotOrDefault = .ok (n.epoch, within) ∧
    (n.epoch = e ∨ n.epoch + 1 = e ∧ within = false)

variable {forest}

section

variable (hregular : params.Regular) (hchild : forest.tree.Child p q) (hn : forest.nonces p.hash = some n)
  (hn' : forest.nonces q.hash = some n')
include hregular hchild hn hn'

theorem NonceTree.epoch_le_of_child : n.epoch ≤ n'.epoch := by
  obtain ⟨header, header', hheader, rfl, hheader', rfl, hparent⟩ := hchild
  obtain ⟨within, hwindow⟩ := forest.epoch_eq hheader hn
  obtain ⟨within', hwindow'⟩ := forest.epoch_eq hheader' hn'
  exact hregular.epoch_le (forest.tree.linked hheader' hparent hheader).1.le hwindow hwindow'

/-- How the nonces of a child come from those of its parent: the tail matters when an epoch ends between
them. -/
theorem NonceTree.evolves_of_child : ∃ header within tail tailParent,
    forest.tree.header q.hash = some header ∧
    params.randomnessStabilityWindow q.slotOrDefault = .ok (n'.epoch, within) ∧
    forest.tree.header n.tail = some tail ∧ tail.parent = some tailParent ∧
    n'.active = n.scheduled hash forest.tree.header n'.epoch ∧
    n' = evolveNonces hash (forest.output header) (some p.hash) n n'.epoch within
      (if n'.epoch = n.epoch then none else some tailParent) := by
  have hepoch := forest.epoch_le_of_child hregular hchild hn hn'
  obtain ⟨header, header', hheader, rfl, hheader', rfl, hparent⟩ := hchild
  obtain ⟨within', hwindow'⟩ := forest.epoch_eq hheader' hn'
  obtain ⟨tail, tailParent, htail, htailParent⟩ := forest.tail hheader hn
  obtain ⟨_, hprevious, hactive, rfl⟩ := exists_previousEpochTailParent hash hepoch htail
    htailParent within' (forest.output header') header'.parent
  have hgetD : forest.nonces (header'.parent.getD originHash) = some n := by
    rw [hparent]
    exact hn
  have hevolved := forest.evolved hheader' hgetD hn'
  rw [evolveNonce_eq hwindow' hgetD, hprevious] at hevolved
  have heq : evolveNonces hash _ _ n n'.epoch within' _ = n' := ok.inj hevolved
  rw [heq] at hactive
  exact ⟨header', within', tail, tailParent, hheader', hwindow', htail, htailParent, hactive,
    hparent ▸ heq.symm⟩

/-- A child agrees with its parent on the nonce of an epoch that is settled. -/
theorem NonceTree.settles_of_child (hsettles : forest.Settles p e) (hle : n'.epoch ≤ e) :
    forest.Settles q e ∧
      n'.scheduled hash forest.tree.header e = n.scheduled hash forest.tree.header e := by
  have hepoch := forest.epoch_le_of_child hregular hchild hn hn'
  obtain ⟨_, within', _, _, -, hwindow', -, -, hactive, heq⟩ :=
    forest.evolves_of_child hregular hchild hn hn'
  obtain ⟨_, within, hsame, hwindow, hposition⟩ := hsettles
  cases hn.symm.trans hsame
  rcases hle.lt_or_eq with hlt | rfl
  · -- both are in the epoch before, and the candidate is frozen
    obtain ⟨rfl, rfl⟩ : n.epoch + 1 = e ∧ within = false := hposition.resolve_left (by omega)
    have hsame' : n'.epoch = n.epoch := by omega
    rw [hsame'] at hwindow'
    obtain rfl := hregular.frozen hchild.slot_lt.le hwindow hwindow'
    refine ⟨⟨n', false, hn', hsame' ▸ hwindow', .inr ⟨by omega, rfl⟩⟩, ?_⟩
    rw [Nonces.scheduled, Nonces.scheduled, if_neg (by omega), if_neg (by omega), heq, if_pos hsame']
    rfl
  · refine ⟨⟨n', within', hn', hwindow', .inl rfl⟩, ?_⟩
    rw [Nonces.scheduled, if_pos rfl, hactive]

end

theorem NonceTree.isSome_of_ancestor (h : forest.tree.Ancestor p q) (hp : (forest.nonces p.hash).isSome) :
    (forest.nonces q.hash).isSome := by
  induction h with
  | refl => exact hp
  | tail _ hchild ih => exact forest.isSome_of_child hchild ih

/-- **All descendants agree on the nonce of an epoch that is settled.** -/
theorem NonceTree.scheduled_of_ancestor (hregular : params.Regular) (h : forest.tree.Ancestor p q)
    (hn : forest.nonces p.hash = some n) (hn' : forest.nonces q.hash = some n')
    (hsettles : forest.Settles p e) (hle : n'.epoch ≤ e) :
    forest.Settles q e ∧ n'.scheduled hash forest.tree.header e = n.scheduled hash forest.tree.header e := by
  induction h generalizing n' with
  | refl =>
    cases hn.symm.trans hn'
    exact ⟨hsettles, rfl⟩
  | @tail r q hr hchild ih =>
    obtain ⟨m, hm⟩ := isSome_iff_exists.1 (forest.isSome_of_ancestor hr (isSome_iff_exists.2 ⟨n, hn⟩))
    obtain ⟨hsettles', hsame⟩ := ih hm ((forest.epoch_le_of_child hregular hchild hm hn').trans hle)
    obtain ⟨hsettles'', hsame'⟩ := forest.settles_of_child hregular hchild hm hn' hsettles' hle
    exact ⟨hsettles'', hsame'.trans hsame⟩

end Settles

end Amaru
