import Amaru.Consensus.LeaderSchedule

/-!
# The recurrences of nonces

In Praos the evolving nonce absorbs every header, the candidate is the evolving nonce of the last header
outside the freeze window of its epoch, and the first header of an epoch combines the candidate with the
parent of the header that was last before the previous epoch (`Praos`). Here this is so **as long as that
header has a parent** (`nonces_follow_praos`). If it has none, the active nonce stays as it is for another
epoch, while a forger combines the candidate with the hash of the origin (`first_header_keeps_nonce`).
-/

namespace Amaru

open NonceTree Relation Option
open Pipeline (headerAt pointAt)

variable {params : ConsensusParameters} {hash : NonceHash} {forest : NonceTree params hash}
  {p q : Point} {n n' : Nonces}

/-- A child in the freeze window of its epoch. -/
def NonceTree.FrozenChild (forest : NonceTree params hash) (p q : Point) : Prop :=
  forest.tree.Child p q ∧ ∃ epoch, params.randomnessStabilityWindow q.slotOrDefault = .ok (epoch, false)

/-- The header at a point has nonces. -/
def NonceTree.At (forest : NonceTree params hash) (p : Point) (n : Nonces) : Prop :=
  forest.nonces p.hash = some n

/-- The nonces of headers are those of Praos, and the forger agrees with them. -/
structure NonceTree.Praos (forest : NonceTree params hash) : Prop where
  evolving : ∀ {p q header n n'}, forest.tree.Child p q → forest.tree.header q.hash = some header →
    forest.At p n → forest.At q n' → n'.evolving = hash.evolve n.evolving (forest.output header)
  /-- No header after the one at `q` is outside the freeze window. -/
  candidate : ∀ {p q r epoch n n' n''}, forest.tree.Child p q →
    params.randomnessStabilityWindow q.slotOrDefault = .ok (epoch, true) →
    ReflTransGen forest.FrozenChild q r → forest.At p n → forest.At q n' → forest.At r n'' →
    n''.candidate = n'.evolving
  inherited : ∀ {p q n n'}, forest.tree.Child p q → forest.At p n → forest.At q n' → n'.epoch = n.epoch →
    n'.active = n.active
  /-- An epoch ends after the header at `p`, and the epoch before ended after the one at `r`. -/
  active : ∀ {r s p q last m m' n n'}, forest.tree.Child r s → forest.tree.Ancestor s p →
    forest.tree.Child p q → forest.At r m → forest.At s m' → forest.At p n → forest.At q n' →
    m.epoch < m'.epoch → n.epoch = m'.epoch → n.epoch < n'.epoch →
    forest.tree.header r.hash = some last →
    ∃ parent, last.parent = some parent ∧ n'.active = hash.nextActive n.candidate parent
  /-- A tip in the freeze window, and any header of the next epoch after it. -/
  forged : ∀ {p q n n'}, forest.tree.Ancestor p q → forest.At p n → forest.At q n' →
    params.randomnessStabilityWindow p.slotOrDefault = .ok (n.epoch, false) → n'.epoch = n.epoch + 1 →
    n.scheduled hash forest.tree.header n'.epoch = n'.active

section

variable (hregular : params.Regular) (hn : forest.At p n) (hn' : forest.At q n')
include hregular hn hn'

theorem NonceTree.candidate_of_frozen (h : ReflTransGen forest.FrozenChild p q) :
    n'.candidate = n.candidate := by
  induction h generalizing n' with
  | refl => rw [some.inj (hn.symm.trans hn')]
  | @tail r q hr hchild ih =>
    obtain ⟨hchild, epoch, hwindow⟩ := hchild
    obtain ⟨m, hm⟩ := isSome_iff_exists.1 (forest.isSome_of_ancestor
      (hr.lift id fun _ _ h ↦ h.1) (isSome_iff_exists.2 ⟨n, hn⟩))
    obtain ⟨_, within, _, _, -, hwindow', -, -, -, heq⟩ := forest.evolves_of_child hregular hchild hm hn'
    cases hwindow.symm.trans hwindow'
    rw [← ih hm, heq]
    rfl

theorem NonceTree.tail_of_ancestor (h : forest.tree.Ancestor p q) :
    n.epoch ≤ n'.epoch ∧ (n'.epoch = n.epoch → n'.tail = n.tail) := by
  induction h generalizing n' with
  | refl =>
    obtain rfl := some.inj (hn.symm.trans hn')
    exact ⟨le_rfl, fun _ ↦ rfl⟩
  | @tail r q hr hchild ih =>
    obtain ⟨m, hm⟩ := isSome_iff_exists.1
      (forest.isSome_of_ancestor hr (isSome_iff_exists.2 ⟨n, hn⟩))
    obtain ⟨hle, htail⟩ := ih hm
    have hle' := forest.epoch_le_of_child hregular hchild hm hn'
    refine ⟨hle.trans hle', fun hepoch ↦ ?_⟩
    obtain ⟨_, _, _, _, -, -, -, -, -, heq⟩ := forest.evolves_of_child hregular hchild hm hn'
    rw [← htail (by omega), heq, if_pos (by omega)]
    rfl

end

/-- **Nonces follow Praos**, if the header before each epoch has a parent. -/
theorem nonces_follow_praos (hregular : params.Regular) (forest : NonceTree params hash) : forest.Praos where
  evolving hchild hheader hn hn' := by
    obtain ⟨header, _, _, _, hheader', -, -, -, -, heq⟩ := forest.evolves_of_child hregular hchild hn hn'
    cases hheader.symm.trans hheader'
    rw [heq]
    rfl
  candidate := by
    intro p q r epoch n n' n'' hchild hwindow hfrozen hn hn' hn''
    obtain ⟨_, within, _, _, -, hwindow', -, -, -, heq⟩ := forest.evolves_of_child hregular hchild hn hn'
    cases hwindow.symm.trans hwindow'
    rw [candidate_of_frozen hregular hn' hn'' hfrozen, heq]
    rfl
  inherited := by
    intro p q n n' hchild hn hn' hepoch
    obtain ⟨_, _, _, _, -, -, -, -, -, heq⟩ := forest.evolves_of_child hregular hchild hn hn'
    rw [heq, if_pos hepoch]
    rfl
  active := by
    intro r s p q last m m' n n' hfirst hpath hchild hm hm' hn hn' hlt hsame hlt' hlast
    obtain ⟨_, _, _, _, -, -, -, -, -, hm'eq⟩ := forest.evolves_of_child hregular hfirst hm hm'
    obtain ⟨_, _, tail, parent, -, -, htail, hparent, -, heq⟩ :=
      forest.evolves_of_child hregular hchild hn hn'
    rw [(tail_of_ancestor hregular hm' hn hpath).2 hsame, hm'eq, if_neg hlt.ne'] at htail
    cases hlast.symm.trans htail
    refine ⟨parent, hparent, ?_⟩
    rw [heq, if_neg hlt'.ne']
    rfl
  forged := by
    intro p q n n' hpath hn hn' hwindow hepoch
    have hsettles : forest.Settles p n'.epoch := ⟨n, false, hn, hwindow, .inr ⟨hepoch.symm, rfl⟩⟩
    rw [← (forest.scheduled_of_ancestor hregular hpath hn hn' hsettles le_rfl).2, Nonces.scheduled,
      if_pos rfl]

/-- A chain over three epochs. -/
def threeEpochs : NonceTree twentySlots decimalHash :=
  .ofMap (.ofList [(3, headerAt 3 9 (some 2)), (5, headerAt 5 10 (some 3)), (21, headerAt 21 11 (some 5)),
      (41, headerAt 41 12 (some 21))])
    (.ofList [(5, ⟨1, 1, 1, 3, 0⟩), (21, ⟨1002, 121, 121, 5, 1⟩), (41, ⟨121003, 12141, 12141, 21, 2⟩)])
    Header.slot (by decide +kernel) (by decide +kernel)

/-- The active nonce of the third epoch is made of the candidate of the second and of the parent of the last
header of the first. -/
theorem nonces_follow_praos_threeEpochs : threeEpochs.Praos ∧ ∃ parent,
    (headerAt 5 10 (some 3)).parent = some parent ∧ 121003 = decimalHash.nextActive 121 parent := by
  have hpraos := nonces_follow_praos (.of_chained chained_twentySlots) threeEpochs
  have hfirst : threeEpochs.tree.Child (pointAt 5 10) (pointAt 21 11) :=
    ⟨headerAt 5 10 (some 3), headerAt 21 11 (some 5), rfl, rfl, rfl, rfl, rfl⟩
  have hsecond : threeEpochs.tree.Child (pointAt 21 11) (pointAt 41 12) :=
    ⟨headerAt 21 11 (some 5), headerAt 41 12 (some 21), rfl, rfl, rfl, rfl, rfl⟩
  have h5 : threeEpochs.At (pointAt 5 10) ⟨1, 1, 1, 3, 0⟩ := rfl
  have h21 : threeEpochs.At (pointAt 21 11) ⟨1002, 121, 121, 5, 1⟩ := rfl
  have h41 : threeEpochs.At (pointAt 41 12) ⟨121003, 12141, 12141, 21, 2⟩ := rfl
  exact ⟨hpraos, hpraos.active hfirst .refl hsecond h5 h21 h21 h41 (by decide) rfl (by decide) rfl⟩

/-- The first header of all, which was the last of the first epoch. -/
def firstHeader : Header := headerAt 5 1 none

/-- **The active nonce stays for another epoch** if the header that was last before the previous epoch is
the first of all. A header of the second epoch has it as its tail. The nonces of a child in the third epoch
keep the active nonce, which is neither the candidate nor what a forger takes. -/
theorem first_header_keeps_nonce : ∃ (n n' : Nonces) (loadHeader : ℕ → Option Header),
    loadHeader n.tail = some firstHeader ∧ firstHeader.parent = none ∧
    evolveNonce twentySlots decimalHash (fun h ↦ if h = 21 then some n else none) loadHeader 41 (some 21) 7
      = .ok n' ∧
    n'.epoch = n.epoch + 1 ∧ n'.active = n.active ∧ n'.active ≠ n.candidate ∧
    n'.active ≠ n.scheduled decimalHash loadHeader n'.epoch := by
  refine ⟨⟨1, 2, 3, 5, 1⟩, _, fun h ↦ if h = 5 then some firstHeader else none, rfl, rfl, rfl, ?_⟩
  decide

end Amaru
