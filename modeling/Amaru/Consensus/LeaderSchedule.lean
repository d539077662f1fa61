import Amaru.Consensus.ForgeBlock
import Amaru.Consensus.Pipeline

/-!
# Schedules and fork switches

Whenever a slot is due, the schedule that it comes from should have been computed from the nonce of the chain
that is extended. This holds as long as **all schedules agree with the adopted tip** (`Agrees`), which a new
tip keeps if it descends from where the nonce was settled.

Only the schedule that was computed from the watched header is dropped when a tip does not descend from that
header. The schedule of the current epoch may have no watch: after a start in the middle of an epoch, after a
switch off the watched header, or when a later watch has taken its place. **A switch then leaves a schedule
of the other chain, and the node ends itself** (`stale_schedule_ends_node`). No other switch does
(`schedules_agree`).
-/

namespace Amaru

open ForgeData List SortedMap Option Schedule Except Nonces LeaderScheduleEffect

variable {Body Cert : Type} {params : ConsensusParameters} {hash : NonceHash} {vrf : Vrf Cert}
  {effect : LeaderScheduleEffect} {ready : EpochSchedule Cert} {epoch : ℕ} {n : Nonces}

/-! ### Runs -/

/-- The stage, the schedules that are being computed, and the timers that were set. -/
structure ForgeNode (Cert : Type) where
  data : ForgeData Cert
  computing : List LeaderScheduleEffect
  armed : List (ℕ × ℕ)

/-- What becomes of the effects of a step. -/
def ForgeNode.perform (node : ForgeNode Cert) : ForgeEffect → ForgeNode Cert
  | .detach effect => { node with computing := node.computing ++ [effect] }
  | .schedule slot generation => { node with armed := node.armed ++ [(slot, generation)] }
  | .forged _ _ _ => node

/-- The node after a step. -/
def ForgeNode.after (node : ForgeNode Cert) (result : ForgeData Cert × List ForgeEffect) : ForgeNode Cert :=
  result.2.foldl ForgeNode.perform { node with data := result.1 }

/-- What is stored belongs to the tree. -/
structure ForgeReading.Within (forest : NonceTree params hash) (rd : ForgeReading Body) : Prop where
  store : rd.store.Within forest.tree
  nonces : ∀ {h n}, rd.nonces.get? h = some n → forest.nonces h = some n

/-- The nonces of a point are stored, and so is the last header of the epoch before. -/
def ForgeReading.Holds (rd : ForgeReading Body) (p : Point) : Prop :=
  ∃ n tail, rd.nonces.get? p.hash = some n ∧ rd.store.loadHeader n.tail = some tail

/-- A tip that may be adopted, with its parent. The tip is stored, and it was validated on top of the parent;
the origin stands for a parent that is not stored. -/
structure Adopts (forest : NonceTree params hash) (rd : ForgeReading Body) (tip parent : Point)
    : Prop where
  stored : rd.store.HasHeader tip
  holds : rd.Holds tip
  parent : parent = .origin ∧ 1 < tip.blockHeight ∨
    ∃ header n, forest.tree.header tip.hash = some header ∧ header.parent.getD originHash = parent.hash ∧
      forest.nonces parent.hash = some n

/-- What runs lead to, if the tips that are adopted meet a condition. -/
inductive ForgeRun (Body : Type) (forest : NonceTree params hash) (vrf : Vrf Cert)
    (Allowed : ForgeData Cert → Point → Prop) : ForgeNode Cert → Prop
  | start (k : ℕ) : ForgeRun Body forest vrf Allowed { data := .new k, computing := [], armed := [] }
  | origin {node} {rd : ForgeReading Body} (hrun : ForgeRun Body forest vrf Allowed node)
    (horigin : node.data.adoptedTip = .origin) :
    ForgeRun Body forest vrf Allowed
      (node.after (node.data.handleAdoptedTip params hash rd .origin .origin))
  | adoptedTip {node} {rd : ForgeReading Body} {tip parent}
    (hrun : ForgeRun Body forest vrf Allowed node) (hwithin : rd.Within forest)
    (hadopts : Adopts forest rd tip parent) (hallowed : Allowed node.data tip) :
    ForgeRun Body forest vrf Allowed (node.after (node.data.handleAdoptedTip params hash rd tip parent))
  | leaderSchedule {node} {rd : ForgeReading Body} {effect}
    (hrun : ForgeRun Body forest vrf Allowed node) (hcomputing : effect ∈ node.computing)
    (stakeKnown : Bool) :
    ForgeRun Body forest vrf Allowed ({ node with computing := node.computing.erase effect }.after
      (node.data.handleLeaderSchedule rd (effect.scheduleFor vrf stakeKnown)))
  | dueLead {node} {rd : ForgeReading Body} {slot generation result}
    (hrun : ForgeRun Body forest vrf Allowed node) (harmed : (slot, generation) ∈ node.armed)
    (hresult : node.data.handleDueLead params hash vrf rd slot generation = .ok result) :
    ForgeRun Body forest vrf Allowed (node.after result)

/-- For every epoch with a schedule, but that of the watch, the old and the new tip have a common ancestor
that settles the nonce. -/
def Steady (forest : NonceTree params hash) (data : ForgeData Cert) (tip : Point) : Prop :=
  ∀ epoch, data.schedule.knows epoch → (∀ watch, data.freeze = some watch → watch.scheduledEpoch ≠ epoch) →
    ∃ p, forest.tree.Ancestor p data.adoptedTip ∧ forest.tree.Ancestor p tip ∧ forest.Settles p epoch

/-! ### Agreement -/

section Agrees

variable {forest : NonceTree params hash} {p q r : Point} {nonce : ℕ}

/-- A nonce is that of an epoch on the chain of a point. -/
def Agrees (forest : NonceTree params hash) (p : Point) (epoch nonce : ℕ) : Prop :=
  ∃ n, forest.nonces p.hash = some n ∧ n.epoch ≤ epoch ∧ forest.Settles p epoch ∧
    nonce = n.scheduled hash forest.tree.header epoch

/-- Two chains agree through a common ancestor that settles the nonce. -/
theorem Agrees.of_ancestor (hregular : params.Regular) (h : Agrees forest q epoch nonce)
    (hsettles : forest.Settles p epoch) (hq : forest.tree.Ancestor p q) (hr : forest.tree.Ancestor p r)
    (hn : forest.nonces r.hash = some n) (hle : n.epoch ≤ epoch) :
    Agrees forest r epoch nonce := by
  obtain ⟨m, hm, hmle, -, rfl⟩ := h
  obtain ⟨m', _, hm', -⟩ := id hsettles
  obtain ⟨-, hsame⟩ := forest.scheduled_of_ancestor hregular hq hm' hm hsettles hmle
  obtain ⟨hsettles', hsame'⟩ := forest.scheduled_of_ancestor hregular hr hm' hn hsettles hle
  exact ⟨n, hn, hle, hsettles', hsame.trans hsame'.symm⟩

end Agrees

/-! ### Schedules that agree with a tip -/

section Schedules

variable {schedule : Schedule Cert} {Holds : ℕ → ℕ → Prop} {nonce slot : ℕ} {cert : Cert}

/-- A slot of an epoch is led. -/
structure Led (params : ConsensusParameters) (vrf : Vrf Cert) (epoch nonce slot : ℕ) (cert : Cert)
    : Prop where
  proves : cert = vrf.prove slot nonce
  isLeader : vrf.isLeader slot cert = true
  inEpoch : ∃ start stop, epochSlots params epoch = some (start, stop) ∧ start ≤ slot ∧ slot < stop

/-- The slots of a schedule are led. -/
def ScheduleState.Good (params : ConsensusParameters) (vrf : Vrf Cert) (epoch : ℕ) : ScheduleState Cert → Prop
  | .pending _ => True
  | .ready schedule => ∀ slot cert, schedule.slots.get? slot = some cert →
    Led params vrf epoch schedule.nonce slot cert

/-- The nonces of all schedules are as they should be. -/
def Schedule.Sound (params : ConsensusParameters) (vrf : Vrf Cert) (Holds : ℕ → ℕ → Prop)
    (schedule : Schedule Cert) : Prop :=
  ∀ epoch state, schedule.epochs.get? epoch = some state →
    Holds epoch state.nonce ∧ state.Good params vrf epoch

section

variable (h : schedule.Sound params vrf Holds)
include h

theorem Schedule.Sound.dropThrough (slot : ℕ) : (schedule.dropThrough slot).Sound params vrf Holds := by
  intro epoch state hget
  rw [Schedule.dropThrough, get?_map] at hget
  obtain ⟨old, hold, rfl⟩ := map_eq_some_iff.1 hget
  obtain ⟨hholds, hgood⟩ := h _ _ hold
  cases old with
  | pending nonce => exact ⟨hholds, trivial⟩
  | ready ready =>
    refine ⟨hholds, fun slot' cert hslot ↦ hgood slot' cert ?_⟩
    rw [get?_filter] at hslot
    exact (filter_eq_some_iff.1 hslot).1

theorem Schedule.Sound.insert (state : ScheduleState Cert) (hholds : Holds epoch state.nonce)
    (hgood : state.Good params vrf epoch) :
    Schedule.Sound params vrf Holds ⟨schedule.epochs.insert epoch state⟩ := by
  intro epoch' state' hget
  rw [get?_insert] at hget
  split_ifs at hget with heq
  · cases hget
    exact heq ▸ ⟨hholds, hgood⟩
  · exact h _ _ hget

theorem Schedule.Sound.request (epoch nonce : ℕ) (hholds : Holds epoch nonce) :
    (schedule.request epoch nonce).1.Sound params vrf Holds := by
  have hpending : Schedule.Sound params vrf Holds ⟨schedule.epochs.insert epoch (.pending nonce)⟩ :=
    h.insert (.pending nonce) hholds trivial
  rw [Schedule.request]
  split
  · split_ifs
    · exact h
    · exact hpending
  · exact hpending

theorem Schedule.Sound.forget (epoch : ℕ) : (schedule.forget epoch).Sound params vrf Holds := by
  intro epoch' state hget
  rw [Schedule.forget, get?_erase] at hget
  split_ifs at hget
  exact h _ _ hget

theorem Schedule.Sound.install {result} (hgood : (ScheduleState.ready result).Good params vrf result.epoch) :
    (schedule.install result).Sound params vrf Holds := by
  rw [Schedule.install]
  split
  · rename_i nonce hget
    split_ifs with heq
    · have hholds := (h _ _ hget).1
      rw [ScheduleState.nonce, heq] at hholds
      exact h.insert (.ready result) hholds hgood
    · exact h
  · exact h

end

theorem Schedule.get?_of_pruneBefore {state dropped keepFrom}
    (h : ((dropped.elim schedule schedule.forget).pruneBefore keepFrom).epochs.get? epoch = some state) :
    schedule.epochs.get? epoch = some state ∧ keepFrom ≤ epoch ∧ dropped ≠ some epoch := by
  rw [pruneBefore, get?_filter] at h
  obtain ⟨hget, hle⟩ := filter_eq_some_iff.1 h
  rcases dropped with - | drop
  · exact ⟨hget, of_decide_eq_true hle, nofun⟩
  · rw [elim_some, forget, get?_erase] at hget
    split_ifs at hget with heq
    exact ⟨hget, of_decide_eq_true hle, fun hdrop ↦ heq (some.inj hdrop).symm⟩

theorem good_scheduleFor (vrf : Vrf Cert) (stakeKnown : Bool)
    (hslots : epochSlots params effect.epoch = some (effect.start, effect.stop)) :
    (ScheduleState.ready (effect.scheduleFor vrf stakeKnown)).Good params vrf effect.epoch := by
  intro slot cert hget
  rw [scheduleFor] at hget
  split_ifs at hget
  · have hmem := mem_of_get?_ofList hget
    obtain ⟨slot', hslot', hcert⟩ := mem_filterMap.1 hmem
    dsimp only at hcert
    split_ifs at hcert with hleader
    cases hcert
    rw [mem_range'_1] at hslot'
    exact ⟨rfl, hleader, _, _, hslots, hslot'.1, by omega⟩
  · cases hget

theorem Schedule.Sound.exists_of_ready (h : schedule.Sound params vrf Holds)
    (hready : ready ∈ schedule.ready) (hslot : ready.slots.get? slot = some cert) :
    ∃ epoch, schedule.epochs.get? epoch ≠ none ∧ Holds epoch ready.nonce ∧
      Led params vrf epoch ready.nonce slot cert := by
  obtain ⟨state, hstate, hsome⟩ := mem_filterMap.1 hready
  obtain ⟨⟨epoch, state'⟩, hentry, hsame⟩ := mem_map.1 hstate
  obtain rfl : state' = state := hsame
  cases state' with
  | pending nonce => cases hsome
  | ready ready' =>
    cases hsome
    have hget := mem_entries_iff.1 hentry
    obtain ⟨hholds, hgood⟩ := h _ _ hget
    exact ⟨epoch, by simp [hget], hholds, hgood slot cert hslot⟩

end Schedules

/-! ### What is decided about the watch -/

section Freeze

variable {freeze : Option FreezeWatch} {tip watch : FreezeWatch}
  {inFreezeWindow freezeIsAncestor : Bool} {k : ℕ}

/-- The watch that is kept is an ancestor, and a new one is in the freeze window. -/
theorem freeze_decideFreeze
    (h : (decideFreeze freeze tip inFreezeWindow freezeIsAncestor k).freeze = some watch) :
    watch = tip ∧ inFreezeWindow = true ∨ freeze = some watch ∧ freezeIsAncestor = true := by
  cases freeze <;> grind [decideFreeze]

/-- The schedule of the next epoch is asked for in the freeze window only. -/
theorem scheduleEpoch_decideFreeze
    (h : (decideFreeze freeze tip inFreezeWindow freezeIsAncestor k).scheduleEpoch = some epoch) :
    inFreezeWindow = true ∧ epoch = tip.scheduledEpoch := by
  cases freeze <;> grind [decideFreeze]

theorem dropEpoch_decideFreeze (hfreeze : freeze = some watch) (hancestor : freezeIsAncestor = false) :
    (decideFreeze freeze tip inFreezeWindow freezeIsAncestor k).dropEpoch = some watch.scheduledEpoch := by
  subst hfreeze hancestor
  cases inFreezeWindow <;> rfl

end Freeze

/-! ### What every step keeps -/

section Sound

variable {forest : NonceTree params hash} {data : ForgeData Cert} {rd : ForgeReading Body}
  {tip parent : Point} {nonce slot : ℕ} {effect : ForgeEffect}
  {progress : ForgeData Cert × List ForgeEffect} {header : Header}

/-- All schedules agree with the adopted tip, and the watched header is an ancestor of it. -/
structure ForgeData.Sound (forest : NonceTree params hash) (vrf : Vrf Cert) (data : ForgeData Cert) :
    Prop where
  origin : data.adoptedTip = .origin → ∀ epoch, data.schedule.epochs.get? epoch = none
  tip : data.adoptedTip ≠ .origin → forest.tree.Has data.adoptedTip
  schedule : data.schedule.Sound params vrf (Agrees forest data.adoptedTip)
  freeze : ∀ {watch}, data.freeze = some watch →
    forest.tree.Has watch.point ∧ forest.tree.Ancestor watch.point data.adoptedTip ∧
      forest.Settles watch.point watch.scheduledEpoch
  parent : data.adoptedTip ≠ .origin → data.adoptedParent = .origin ∧ 1 < data.adoptedTip.blockHeight ∨
    ∃ header n, forest.tree.header data.adoptedTip.hash = some header ∧ header.point = data.adoptedTip ∧
      header.parent.getD originHash = data.adoptedParent.hash ∧ forest.nonces data.adoptedParent.hash = some n

theorem ForgeData.Sound.congr {data' : ForgeData Cert} (h : data.Sound forest vrf)
    (htip : data'.adoptedTip = data.adoptedTip) (hparent : data'.adoptedParent = data.adoptedParent)
    (hfreeze : data'.freeze = data.freeze)
    (horigin : data.adoptedTip = .origin → ∀ epoch, data'.schedule.epochs.get? epoch = none)
    (hschedule : data'.schedule.Sound params vrf (Agrees forest data.adoptedTip)) :
    data'.Sound forest vrf where
  origin := htip ▸ horigin
  tip := htip ▸ h.tip
  schedule := htip ▸ hschedule
  freeze := by
    rw [htip, hfreeze]
    exact h.freeze
  parent := by
    rw [htip, hparent]
    exact h.parent

theorem ForgeData.Sound.dropThrough (h : data.Sound forest vrf) (slot : ℕ) :
    ForgeData.Sound forest vrf { data with schedule := data.schedule.dropThrough slot } := by
  refine h.congr rfl rfl rfl (fun htip epoch ↦ ?_) (h.schedule.dropThrough slot)
  rw [Schedule.dropThrough, get?_map, h.origin htip epoch, map_none]

/-- A computation is about the slots of its epoch. -/
def ForgeEffect.Timed (params : ConsensusParameters) : ForgeEffect → Prop
  | .detach effect => epochSlots params effect.epoch = some (effect.start, effect.stop)
  | .schedule _ _ | .forged _ _ _ => True

/-- What a step leaves, and its effects. -/
structure SoundStep (forest : NonceTree params hash) (vrf : Vrf Cert)
    (result : ForgeData Cert × List ForgeEffect) : Prop where
  data : result.1.Sound forest vrf
  timed : ∀ effect ∈ result.2, effect.Timed params

theorem exists_of_mem_armNextLead (h : effect ∈ (data.armNextLead rd).2) :
    ∃ slot generation, effect = .schedule slot generation := by
  rw [armNextLead] at h
  split at h
  · split_ifs at h
    · exact ⟨_, _, mem_singleton.1 h⟩
    · cases h
  · cases h

theorem ForgeData.Sound.armNextLead (h : data.Sound forest vrf) :
    SoundStep forest vrf (data.armNextLead rd) := by
  have hgeneration : ForgeData.Sound forest vrf { data with scheduleGeneration :=
    data.scheduleGeneration + 1 } :=
    h.congr rfl rfl rfl h.origin h.schedule
  have helapsed : ForgeData.Sound forest vrf
      ({ data with scheduleGeneration := data.scheduleGeneration + 1 }.dropElapsed rd) := by
    rw [dropElapsed]
    split
    · exact hgeneration.dropThrough _
    · exact hgeneration
  constructor
  · rw [ForgeData.armNextLead]
    split <;> exact helapsed
  · intro effect heffect
    obtain ⟨_, _, rfl⟩ := exists_of_mem_armNextLead heffect
    trivial

theorem SoundStep.armNextLead (h : SoundStep forest vrf progress) : SoundStep forest vrf
    ((progress.1.armNextLead rd).1, progress.2 ++ (progress.1.armNextLead rd).2) :=
  ⟨h.data.armNextLead.data, fun effect heffect ↦
    (mem_append.1 heffect).elim (h.timed effect) (h.data.armNextLead.timed effect)⟩

theorem scheduleNonce_eq (hwithin : rd.Within forest) (hstored : rd.store.HasHeader tip)
    (hholds : rd.Holds tip) (hn : forest.nonces tip.hash = some n) :
    scheduleNonce hash rd tip epoch = some (n.scheduled hash forest.tree.header epoch) := by
  obtain ⟨header, hload, hpoint⟩ := hstored
  obtain ⟨m, tail, hm, htail⟩ := hholds
  cases hn.symm.trans (hwithin.nonces hm)
  have hhash : header.hash = tip.hash := hwithin.store.hash_eq hload
  rw [scheduleNonce, hload]
  change (rd.nonces.get? header.hash >>= _) = _
  rw [hhash, hm]
  change some _ = some _
  rw [scheduled, scheduled, htail, hwithin.store.header_eq htail]

theorem ForgeData.Sound.requestSchedule (h : progress.1.Sound forest vrf) (hwithin : rd.Within forest)
    (hstored : rd.store.HasHeader progress.1.adoptedTip) (hholds : rd.Holds progress.1.adoptedTip)
    (htip : progress.1.adoptedTip ≠ .origin)
    (hsettles : ∃ n, forest.nonces progress.1.adoptedTip.hash = some n ∧ n.epoch ≤ epoch ∧
      forest.Settles progress.1.adoptedTip epoch) :
    (ForgeData.requestSchedule params hash rd progress epoch).1.Sound forest vrf := by
  obtain ⟨n, hn, hle, hsettles⟩ := hsettles
  have hrequest := h.schedule.request epoch (n.scheduled hash forest.tree.header epoch)
    ⟨n, hn, hle, hsettles, rfl⟩
  rw [ForgeData.requestSchedule]
  rw [scheduleNonce_eq hwithin hstored hholds hn]
  dsimp only
  split_ifs
  · exact h
  · split
    · exact h.congr rfl rfl rfl (fun h' ↦ absurd h' htip) (hrequest.forget epoch)
    · exact h.congr rfl rfl rfl (fun h' ↦ absurd h' htip) hrequest

/-- The watched header is an ancestor of a tip, if the store says so. -/
theorem ancestor_of_freezeIsAncestor {watch} (hstore : rd.store.Within forest.tree)
    (hload : rd.store.loadHeader header.hash = some header) (hwatch : data.freeze = some watch)
    (hhas : forest.tree.Has watch.point) (h : data.freezeIsAncestor rd header = true) :
    forest.tree.Ancestor watch.point header.point := by
  rw [freezeIsAncestor, hwatch] at h
  dsimp only at h
  split at h
  · rename_i point hfound
    obtain ⟨header', -, ancestor, -, hload', -, hmem, rfl, -, -⟩ :=
      ChainStore.exists_of_findCommonAncestor hfound
    cases hload.symm.trans hload'
    have hancestor := hstore.ancestor_of_mem hload hmem
    have hsame : ancestor.point = watch.point :=
      ((hstore.hasHeader_of_mem hload hmem).has hstore).eq_of_hash_eq hhas (of_decide_eq_true h)
    exact hsame ▸ hancestor
  · cases h

/-- **A tip that is adopted keeps the schedules that agree with it, and asks for others.** -/
theorem ForgeData.Sound.followTip {within : Bool} (hregular : params.Regular)
    (h : data.Sound forest vrf) (hwithin : rd.Within forest) (hadopts : Adopts forest rd tip parent)
    (hload : rd.store.loadHeader tip.hash = some header) (hpoint : header.point = tip)
    (hwindow : params.randomnessStabilityWindow header.slot = .ok (epoch, within))
    (hsteady : Steady forest data tip) :
    let result := { data with adoptedTip := tip, adoptedParent := parent }.followTip rd header
      epoch (!within)
    result.1.Sound forest vrf ∧ result.1.adoptedTip = tip ∧ ∀ e ∈ result.2,
      ∃ n, forest.nonces tip.hash = some n ∧ n.epoch ≤ e ∧ forest.Settles tip e := by
  have hhash : header.hash = tip.hash := hwithin.store.hash_eq hload
  have htree := hwithin.store.header_eq hload
  obtain ⟨n, _, hget, -⟩ := id hadopts.holds
  have hn := hwithin.nonces hget
  obtain ⟨within', hwindow'⟩ := forest.epoch_eq htree hn
  obtain ⟨rfl, rfl⟩ := Prod.mk.inj (ok.inj (hwindow.symm.trans hwindow'))
  have hslot : tip.slotOrDefault = header.slot := hpoint ▸ rfl
  have htip : tip ≠ .origin := fun horigin ↦ by cases horigin.symm.trans hpoint.symm
  have hsettles : forest.Settles tip n.epoch := ⟨n, within, hn, hslot ▸ hwindow, .inl rfl⟩
  have hfrozen : within = false → forest.Settles tip (n.epoch + 1) := fun hfalse ↦
    ⟨n, within, hn, hslot ▸ hwindow, .inr ⟨rfl, hfalse⟩⟩
  have hancestor : ∀ {watch}, data.freeze = some watch →
      freezeIsAncestor rd { data with adoptedTip := tip, adoptedParent := parent } header = true →
      forest.tree.Ancestor watch.point tip := by
    intro watch hwatch hfound
    rw [← hpoint]
    exact ancestor_of_freezeIsAncestor hwithin.store (hhash ▸ hload) hwatch (h.freeze hwatch).1 hfound
  intro result
  refine ⟨⟨fun horigin ↦ absurd horigin htip, fun _ ↦ ⟨header, htree, hpoint⟩, ?_, ?_, ?_⟩, rfl, ?_⟩
  · -- a schedule that is kept agrees with the new tip, through the watch or another common ancestor
    intro e state hget
    obtain ⟨hold, hle, hdrop⟩ := get?_of_pruneBefore hget
    obtain ⟨hagrees, hgood⟩ := h.schedule e state hold
    refine ⟨?_, hgood⟩
    by_cases hwatched : ∃ watch, data.freeze = some watch ∧ watch.scheduledEpoch = e
    · obtain ⟨watch, hwatch, rfl⟩ := hwatched
      obtain ⟨-, hold, hsettled⟩ := h.freeze hwatch
      refine hagrees.of_ancestor hregular hsettled hold (hancestor hwatch ?_) hn hle
      by_contra hnot
      exact hdrop (dropEpoch_decideFreeze hwatch (Bool.eq_false_of_not_eq_true hnot))
    · have hunwatched : ∀ watch, data.freeze = some watch → watch.scheduledEpoch ≠ e :=
        fun watch hwatch heq ↦ hwatched ⟨watch, hwatch, heq⟩
      have hknows : data.schedule.knows e = true := by
        rw [knows, SortedMap.contains, hold]
        rfl
      obtain ⟨p, hp, hp', hsettled⟩ := hsteady e hknows hunwatched
      exact hagrees.of_ancestor hregular hsettled hp hp' hn hle
  · intro watch hwatch
    rcases freeze_decideFreeze hwatch with ⟨rfl, hwindow⟩ | ⟨hwatch, hfound⟩
    · refine ⟨⟨header, ?_, rfl⟩, ?_, ?_⟩
      · change forest.tree.header header.hash = some header
        rw [hhash]
        exact htree
      · change forest.tree.Ancestor header.point tip
        rw [hpoint]
      · change forest.Settles header.point (n.epoch + 1)
        rw [hpoint]
        exact hfrozen (by simpa using hwindow)
    · obtain ⟨hhas, -, hsettled⟩ := h.freeze hwatch
      exact ⟨hhas, hancestor hwatch hfound, hsettled⟩
  · intro _
    rcases hadopts.parent with hnone | ⟨header', m, htree', hparent, hm⟩
    · exact .inl hnone
    · cases htree.symm.trans htree'
      exact .inr ⟨header, m, htree, hpoint, hparent, hm⟩
  · intro e he
    rcases mem_append.1 he with he | he
    · split_ifs at he
      · cases mem_singleton.1 he
        exact ⟨n, hn, le_rfl, hsettles⟩
      · cases he
    · obtain ⟨hwindow, rfl⟩ := scheduleEpoch_decideFreeze (mem_toList.1 he)
      exact ⟨n, hn, Nat.le_succ _, hfrozen (by simpa using hwindow)⟩

theorem exists_requestSchedule (params : ConsensusParameters) (hash : NonceHash)
    (rd : ForgeReading Body) (progress : ForgeData Cert × List ForgeEffect) (epoch : ℕ) :
    ∃ schedule effects, requestSchedule params hash rd progress epoch =
        ({ progress.1 with schedule }, progress.2 ++ effects) ∧
      ∀ effect ∈ effects, effect.Timed params := by
  have hsame : ∃ schedule effects, progress = ({ progress.1 with schedule }, progress.2 ++ effects) ∧
      ∀ effect ∈ effects, effect.Timed params :=
    ⟨progress.1.schedule, [], by rw [append_nil], nofun⟩
  rw [requestSchedule]
  rcases scheduleNonce hash rd progress.1.adoptedTip epoch with - | nonce
  · exact hsame
  rcases hrequest : progress.1.schedule.request epoch nonce with ⟨schedule, isNew⟩
  rcases isNew with - | -
  · simp only [hrequest]
    exact hsame
  simp only [hrequest]
  rcases hslots : epochSlots params epoch with - | bounds
  · exact ⟨_, [], by rw [append_nil]; rfl, nofun⟩
  · refine ⟨schedule, [.detach ⟨epoch, nonce, bounds.1, bounds.2⟩], rfl, ?_⟩
    intro effect heffect
    cases mem_singleton.1 heffect
    exact hslots

theorem SoundStep.requestSchedules {epochs : List ℕ} (h : SoundStep forest vrf progress)
    (hwithin : rd.Within forest) (hstored : rd.store.HasHeader tip)
    (hholds : rd.Holds tip) (htip : progress.1.adoptedTip = tip) (horigin : tip ≠ .origin)
    (hsettles : ∀ e ∈ epochs, ∃ n, forest.nonces tip.hash = some n ∧ n.epoch ≤ e ∧ forest.Settles tip e) :
    SoundStep forest vrf (epochs.foldl (requestSchedule params hash rd) progress) := by
  induction epochs generalizing progress with
  | nil => exact h
  | cons epoch epochs ih =>
    subst htip
    obtain ⟨schedule, effects, hrequest, htimed⟩ := exists_requestSchedule params hash rd progress epoch
    refine ih ⟨h.data.requestSchedule hwithin hstored hholds horigin (hsettles epoch mem_cons_self), ?_⟩
      ?_ fun e he ↦ hsettles e (mem_cons_of_mem _ he)
    · rw [hrequest]
      exact fun effect heffect ↦ (mem_append.1 heffect).elim (h.timed effect) (htimed effect)
    · rw [hrequest]

theorem ForgeData.Sound.handleAdoptedTip (hregular : params.Regular) (h : data.Sound forest vrf)
    (hwithin : rd.Within forest) (hadopts : Adopts forest rd tip parent)
    (hsteady : Steady forest data tip) :
    SoundStep forest vrf (data.handleAdoptedTip params hash rd tip parent) := by
  obtain ⟨header, hload, hpoint⟩ := id hadopts.stored
  have htip : tip ≠ .origin := fun horigin ↦ by cases horigin.symm.trans hpoint.symm
  obtain ⟨n, _, hget, -⟩ := id hadopts.holds
  obtain ⟨within, hwindow⟩ := forest.epoch_eq (hwithin.store.header_eq hload) (hwithin.nonces hget)
  obtain ⟨hsound, hsame, hsettles⟩ := h.followTip hregular hwithin hadopts hload hpoint hwindow hsteady
  rw [ForgeData.handleAdoptedTip, if_neg htip, hload]
  dsimp only
  rw [hwindow]
  have hfollowed : SoundStep forest vrf (_, []) := ⟨hsound, nofun⟩
  exact (hfollowed.requestSchedules hwithin hadopts.stored hadopts.holds hsame htip hsettles).armNextLead

end Sound

/-! ### Forging -/

section Forging

variable {forest : NonceTree params hash} {data : ForgeData Cert} {rd : ForgeReading Body}
  {parent : Point} {slot generation : ℕ} {cert : Cert} {error : ForgedHeaderError}
  {result : ForgeData Cert × List ForgeEffect}

theorem ForgeData.Sound.forge (h : data.Sound forest vrf)
    (hresult : data.forge params hash vrf rd slot parent cert = .ok result) :
    SoundStep forest vrf result := by
  rw [ForgeData.forge] at hresult
  split at hresult
  · exact ok.inj hresult ▸ h.armNextLead
  split at hresult
  · exact ok.inj hresult ▸ h.armNextLead
  split at hresult
  · exact ok.inj hresult ▸ h.armNextLead
  · cases hresult
  dsimp only at hresult
  split at hresult
  · cases hresult
  split_ifs at hresult
  have hpublished : ForgeData.Sound forest vrf { data with published := some (slot, parent.hash) } :=
    h.congr rfl rfl rfl h.origin h.schedule
  cases hresult
  refine ⟨hpublished.armNextLead.data, fun effect heffect ↦ ?_⟩
  rcases mem_cons.1 heffect with rfl | heffect
  · trivial
  · exact hpublished.armNextLead.timed effect heffect

theorem ForgeData.Sound.handleDueLead (h : data.Sound forest vrf)
    (hresult : data.handleDueLead params hash vrf rd slot generation = .ok result) :
    SoundStep forest vrf result := by
  have hpassed := h.dropThrough slot
  rw [ForgeData.handleDueLead] at hresult
  split_ifs at hresult
  · cases hresult
    exact ⟨h, nofun⟩
  · cases hresult
    exact hpassed.armNextLead
  split at hresult
  · exact hpassed.forge hresult
  · cases hresult
    exact hpassed.armNextLead

/-- A header that is not valid was forged on top of the parent. -/
theorem exists_of_validateHeader_error
    (h : data.handleDueLead params hash vrf rd slot generation = .error (.validateHeader error)) :
    ∃ parent cert, data.parentToExtend slot = some parent ∧ data.schedule.leadAt slot = some cert ∧
      validateHeader params hash vrf rd ⟨parent.blockHeight + 1, slot, parent.hash, cert⟩ =
        .error error := by
  rw [handleDueLead] at h
  split_ifs at h
  split at h
  · rename_i parent cert hparent hcert
    refine ⟨parent, cert, hparent, hcert, ?_⟩
    rw [forge] at h
    split at h
    · cases h
    split at h
    · cases h
    split at h
    · cases h
    · cases h
    dsimp only at h
    split at h
    · next hvalidate =>
      cases h
      exact hvalidate
    · split_ifs at h <;> cases h
  · cases h

theorem exists_window {start stop : ℕ} (hregular : params.Regular)
    (hslots : epochSlots params epoch = some (start, stop)) (hstart : start ≤ slot) (hstop : slot < stop) :
    ∃ within, params.randomnessStabilityWindow slot = .ok (epoch, within) := by
  obtain ⟨start', hstart', hslots⟩ := bind_eq_some_iff.1 hslots
  obtain ⟨stop', hstop', hslots⟩ := bind_eq_some_iff.1 hslots
  cases hslots
  exact hregular.epoch_eq (toOption_eq_some_iff.1 hstart') (toOption_eq_some_iff.1 hstop') hstart hstop

/-- **The schedule that a slot comes from was computed from the nonce of the chain that is extended.** -/
theorem ForgeData.Sound.active_eq (hregular : params.Regular) (h : data.Sound forest vrf)
    (hwithin : rd.Within forest) (hready : ready ∈ data.schedule.ready)
    (hslot : ready.slots.get? slot = some cert) (hparent : data.parentToExtend slot = some parent)
    (hholds : rd.Holds parent) (output : ℕ) :
    cert = vrf.prove slot ready.nonce ∧ vrf.isLeader slot cert = true ∧
      ∃ nonces, evolveNonce params hash rd.nonces.get? rd.store.loadHeader slot
        (some parent.hash) output
        = .ok nonces ∧ nonces.active = ready.nonce := by
  obtain ⟨epoch, hget, ⟨n, hn, hle, -, hnonce⟩, hproves, hleader, start, stop, hslots, hstart, hstop⟩ :=
    h.schedule.exists_of_ready hready hslot
  refine ⟨hproves, hleader, ?_⟩
  rw [hnonce]
  obtain ⟨within, hwindow⟩ := exists_window hregular hslots hstart hstop
  have htip : data.adoptedTip ≠ .origin := fun horigin ↦ hget (h.origin horigin epoch)
  obtain ⟨header, hheader, hpoint⟩ := h.tip htip
  obtain ⟨m, tail, hm, htail⟩ := hholds
  rw [parentToExtend] at hparent
  split_ifs at hparent with hlt heq hnone
  · -- the header extends the tip
    cases hparent
    obtain rfl : m = n := some.inj ((hwithin.nonces hm).symm.trans hn)
    obtain ⟨tail', tailParent, htail', htailParent⟩ := forest.tail hheader hn
    obtain rfl : tail' = tail := some.inj (htail'.symm.trans (hwithin.store.header_eq htail))
    obtain ⟨previous, hprevious, hactive, -⟩ :=
      exists_previousEpochTailParent hash hle htail htailParent within output (some data.adoptedTip.hash)
    refine ⟨_, ?_, hactive.trans ?_⟩
    · rw [evolveNonce_eq hwindow hm, hprevious]
      rfl
    · rw [scheduled, scheduled, htail, htail']
  · -- the header has the slot of the tip, so it is as the tip was on top of the parent
    cases hparent
    obtain ⟨header', n', hheader', -, hparent, hn'⟩ := (h.parent htip).resolve_left hnone
    cases hheader.symm.trans hheader'
    obtain rfl : m = n' := some.inj ((hwithin.nonces hm).symm.trans hn')
    have hslot : header.slot = slot := by
      rw [← heq, ← hpoint]
      rfl
    obtain ⟨within', hwindow'⟩ := forest.epoch_eq hheader hn
    rw [hslot, hwindow] at hwindow'
    cases hwindow'
    have hevolved := forest.evolved hheader (hparent ▸ hn') hn
    rw [hslot, evolveNonce_eq hwindow (hparent ▸ hn')] at hevolved
    obtain ⟨previous, hprevious, hn⟩ := map_eq_ok_iff.1 hevolved
    rw [previousEpochTailParent, hwithin.store.header_eq htail] at hprevious
    refine ⟨evolveNonces hash output (some data.adoptedParent.hash) m n.epoch within previous, ?_, ?_⟩
    · rw [evolveNonce_eq hwindow hm, previousEpochTailParent, htail, hprevious]
      rfl
    · rw [scheduled, if_pos rfl]
      nth_rewrite 2 [← hn]
      rfl

end Forging

/-! ### Runs -/

section Runs

variable {forest : NonceTree params hash} {node : ForgeNode Cert} {rd : ForgeReading Body}
  {result : ForgeData Cert × List ForgeEffect}

/-- The computations are about the slots of their epochs. -/
structure ForgeNode.Sound (forest : NonceTree params hash) (vrf : Vrf Cert) (node : ForgeNode Cert)
    : Prop where
  data : node.data.Sound forest vrf
  computing : ∀ effect ∈ node.computing, (ForgeEffect.detach effect).Timed params

theorem ForgeNode.data_foldl_perform (effects : List ForgeEffect) :
    (effects.foldl ForgeNode.perform node).data = node.data := by
  induction effects generalizing node with
  | nil => rfl
  | cons effect effects ih =>
    rw [foldl_cons, ih]
    cases effect <;> rfl

theorem ForgeNode.computing_foldl_perform {effects : List ForgeEffect}
    (h : effect ∈ (effects.foldl ForgeNode.perform node).computing) :
    effect ∈ node.computing ∨ .detach effect ∈ effects := by
  induction effects generalizing node with
  | nil => exact .inl h
  | cons first effects ih =>
    rcases ih h with h | h
    · cases first with
      | detach first =>
        rcases mem_append.1 h with h | h
        · exact .inl h
        · cases mem_singleton.1 h
          exact .inr mem_cons_self
      | schedule | forged => exact .inl h
    · exact .inr (mem_cons_of_mem _ h)

theorem ForgeNode.Sound.after (hcomputing : ∀ effect ∈ node.computing,
    (ForgeEffect.detach effect).Timed params)
    (hresult : SoundStep forest vrf result) :
    (node.after result).Sound forest vrf where
  data := by
    rw [ForgeNode.after, ForgeNode.data_foldl_perform]
    exact hresult.data
  computing effect heffect := by
    rcases ForgeNode.computing_foldl_perform heffect with h | h
    · exact hcomputing effect h
    · exact hresult.timed _ h

theorem ForgeData.sound_new (k : ℕ) : (new k).Sound forest vrf where
  origin _ _ := rfl
  tip h := absurd rfl h
  schedule := nofun
  freeze := nofun
  parent h := absurd rfl h

theorem ForgeData.Sound.origin_handleAdoptedTip {data : ForgeData Cert} (h : data.Sound forest vrf)
    (horigin : data.adoptedTip = .origin) :
    SoundStep forest vrf (data.handleAdoptedTip params hash rd .origin .origin) := by
  have hsound : ForgeData.Sound forest vrf { data with adoptedTip := .origin, adoptedParent := .origin } :=
    { origin := fun _ ↦ h.origin horigin
      tip := fun hne ↦ absurd rfl hne
      schedule := horigin ▸ h.schedule
      freeze := horigin ▸ h.freeze
      parent := fun hne ↦ absurd rfl hne }
  exact hsound.armNextLead

/-- **What holds of the node in every run whose tips are steady.** -/
theorem ForgeRun.sound (hregular : params.Regular) (hrun : ForgeRun Body forest vrf (Steady forest) node) :
    node.Sound forest vrf := by
  induction hrun with
  | start k => exact ⟨sound_new k, nofun⟩
  | origin hrun horigin ih => exact .after ih.computing (ih.data.origin_handleAdoptedTip horigin)
  | adoptedTip hrun hwithin hadopts hallowed ih =>
    exact .after ih.computing (ih.data.handleAdoptedTip hregular hwithin hadopts hallowed)
  | @leaderSchedule node rd effect hrun hcomputing stakeKnown ih =>
    have hgood := good_scheduleFor vrf stakeKnown (ih.computing effect hcomputing)
    have hinstalled : ForgeData.Sound forest vrf { node.data with
        schedule := node.data.schedule.install (effect.scheduleFor vrf stakeKnown) } := by
      refine ih.data.congr rfl rfl rfl (fun horigin epoch ↦ ?_) (ih.data.schedule.install hgood)
      rw [install, ih.data.origin horigin]
      exact ih.data.origin horigin epoch
    exact .after (fun other hother ↦ ih.computing other (mem_of_mem_erase hother)) hinstalled.armNextLead
  | dueLead hrun harmed hresult ih => exact .after ih.computing (ih.data.handleDueLead hresult)

/-- **No header that is forged fails, if no switch leaves what settles the schedules that are kept**: the
schedule was computed from the nonce of the chain that is extended. -/
theorem schedules_agree {slot : ℕ} (generation : ℕ) (hchained : EraHistory.Chained params.eraHistory.eras)
    (hcomplete : ∀ slot nonce, vrf.verify slot nonce (vrf.prove slot nonce) = true)
    (hrun : ForgeRun Body forest vrf (Steady forest) node) (hwithin : rd.Within forest)
    (hholds : ∀ parent, node.data.parentToExtend slot = some parent → rd.Holds parent)
    (hcredentials : rd.credentialsValid = true) :
    (∀ error, node.data.handleDueLead params hash vrf rd slot generation ≠
      .error (.validateHeader error)) ∧
    ∀ ready ∈ node.data.schedule.ready, ∀ cert, ready.slots.get? slot = some cert →
      ∀ parent, node.data.parentToExtend slot = some parent →
        ∃ nonces, evolveNonce params hash rd.nonces.get? rd.store.loadHeader slot (some parent.hash)
          (vrf.output cert) = .ok nonces ∧ nonces.active = ready.nonce := by
  have hregular := ConsensusParameters.Regular.of_chained hchained
  have hsound := (hrun.sound hregular).data
  have hagree {ready cert} (hready : ready ∈ node.data.schedule.ready)
      (hcert : ready.slots.get? slot = some cert) {parent}
      (hparent : node.data.parentToExtend slot = some parent) :=
    hsound.active_eq hregular hwithin hready hcert hparent (hholds parent hparent) (vrf.output cert)
  refine ⟨fun error herror ↦ ?_, fun ready hready cert hcert parent hparent ↦
    (hagree hready hcert hparent).2.2⟩
  obtain ⟨parent, cert, hparent, hlead, herror⟩ := exists_of_validateHeader_error herror
  obtain ⟨ready, hready, hslot⟩ := exists_of_findSome?_eq_some hlead
  obtain ⟨hproves, hleader, nonces, hevolve, hactive⟩ := hagree hready hslot hparent
  have hverify : vrf.verify slot nonces.active cert = true := by
    rw [hactive, hproves]
    exact hcomplete slot ready.nonce
  rw [validateHeader, hevolve] at herror
  simp [hcredentials, hverify, hleader] at herror

/-- A switch of limited depth. -/
def Shallow (forest : NonceTree params hash) (data : ForgeData Cert) (tip : Point) : Prop :=
  data.adoptedTip = .origin ∨ ∃ p, forest.tree.Ancestor p data.adoptedTip ∧ forest.tree.Ancestor p tip ∧
    data.adoptedTip.blockHeight ≤ p.blockHeight + data.k

end Runs

/-! ### Two chains that differ before the freeze window -/

section Example

open Pipeline (headerAt pointAt)

/-- Epochs of twenty slots, and nonces that freeze after twelve of them. -/
def twentySlots : ConsensusParameters where
  eraHistory := { stabilityWindow := 16, eras := [⟨⟨0, 0, 0⟩, none, ⟨20, 1⟩⟩] }
  randomnessStabilizationWindow := 8

/-- Hashes that tell everything apart. -/
def decimalHash : NonceHash where
  nextActive candidate tail := 1000 * candidate + tail
  evolve nonce output := 100 * nonce + output

/-- A pool that leads every slot, and whose proofs are what they prove. -/
def everySlot : Vrf (ℕ × ℕ) where
  prove slot nonce := (slot, nonce)
  verify slot nonce cert := cert = (slot, nonce)
  output cert := cert.1
  isLeader _ _ := true

/-- Two chains fork at slot 5, in the first epoch. -/
def forkAt5 : SortedMap ℕ Header := .ofList [(3, headerAt 3 9 (some 2)), (5, headerAt 5 10 (some 3)),
  (8, headerAt 8 11 (some 5)), (21, headerAt 21 12 (some 8)),
  (9, headerAt 9 11 (some 5)), (22, headerAt 22 12 (some 9)), (23, headerAt 23 13 (some 22))]

def forkAt5Nonces : SortedMap ℕ Nonces := .ofList [(5, ⟨1, 1, 1, 3, 0⟩),
  (8, ⟨1, 108, 108, 3, 0⟩), (21, ⟨108002, 10821, 10821, 8, 1⟩),
  (9, ⟨1, 109, 109, 3, 0⟩), (22, ⟨109002, 10922, 10922, 9, 1⟩), (23, ⟨109002, 1092223, 1092223, 9, 1⟩)]

def forkAt5Forest : NonceTree twentySlots decimalHash :=
  .ofMap forkAt5 forkAt5Nonces Header.slot (by decide +kernel) (by decide +kernel)

/-- All is stored, and it is slot 25. -/
def atSlot25 : ForgeReading Unit where
  store := ⟨forkAt5, ∅, ∅, .origin, ∅, .origin⟩
  nonces := forkAt5Nonces
  slotClosed slot := slot < 25
  slotPlaced _ := true
  wokeLate := false
  takeForForge := .taken
  signHeader := .signed
  credentialsValid := true
  sealBlock := true
  storeHeader := true
  storeBlock := true
  headerHash := 25

theorem within_atSlot25 : atSlot25.Within forkAt5Forest where
  store := ⟨id, nofun⟩
  nonces h := h

/-- The node has the schedule of the second epoch, from the tip at slot 21. -/
def scheduledFrom21 : ForgeNode (ℕ × ℕ) :=
  let node : ForgeNode (ℕ × ℕ) := { data := .new 2, computing := [], armed := [] }
  let node := node.after (node.data.handleAdoptedTip twentySlots decimalHash atSlot25 (pointAt 21 12)
    (pointAt 8 11))
  { node with computing := node.computing.erase ⟨1, 108002, 20, 40⟩ }.after
    (node.data.handleLeaderSchedule atSlot25 (scheduleFor everySlot ⟨1, 108002, 20, 40⟩ true))

/-- Then the node switches to the other chain. -/
def switchedTo23 : ForgeNode (ℕ × ℕ) :=
  scheduledFrom21.after
    (scheduledFrom21.data.handleAdoptedTip twentySlots decimalHash atSlot25 (pointAt 23 13) (pointAt 22 12))

theorem adopts_21 : Adopts forkAt5Forest atSlot25 (pointAt 21 12) (pointAt 8 11) where
  stored := ⟨headerAt 21 12 (some 8), by decide +kernel, rfl⟩
  holds := ⟨⟨108002, 10821, 10821, 8, 1⟩, headerAt 8 11 (some 5), by decide +kernel, by decide +kernel⟩
  parent := .inr ⟨headerAt 21 12 (some 8), ⟨1, 108, 108, 3, 0⟩, by decide +kernel, rfl, by decide +kernel⟩

theorem adopts_23 : Adopts forkAt5Forest atSlot25 (pointAt 23 13) (pointAt 22 12) where
  stored := ⟨headerAt 23 13 (some 22), by decide +kernel, rfl⟩
  holds := ⟨⟨109002, 1092223, 1092223, 9, 1⟩, headerAt 9 11 (some 5), by decide +kernel, by decide +kernel⟩
  parent := .inr ⟨headerAt 23 13 (some 22), ⟨109002, 10922, 10922, 9, 1⟩, by decide +kernel, rfl, by
    decide +kernel⟩

theorem run_scheduledFrom21 {Allowed} (hallowed : Allowed (.new 2) (pointAt 21 12)) :
    ForgeRun Unit forkAt5Forest everySlot Allowed scheduledFrom21 :=
  .leaderSchedule (.adoptedTip (.start 2) within_atSlot25 adopts_21 hallowed) (by decide +kernel) true

theorem chained_twentySlots : EraHistory.Chained twentySlots.eraHistory.eras := .last rfl (by decide)

/-- At slot 25 the first chain can be extended. -/
theorem schedules_agree_scheduledFrom21 : scheduledFrom21.data.schedule.leadAt 25 = some (25, 108002) ∧
    ∀ error, scheduledFrom21.data.handleDueLead twentySlots decimalHash everySlot atSlot25 25 2 ≠
      .error (.validateHeader error) := by
  have hsteady : Steady forkAt5Forest (.new 2 : ForgeData (ℕ × ℕ)) (pointAt 21 12) := by
    intro epoch hknows
    cases hknows
  refine ⟨by decide +kernel, (schedules_agree 2 chained_twentySlots
    (fun _ _ ↦ decide_eq_true rfl) (run_scheduledFrom21 hsteady) within_atSlot25 ?_ rfl).1⟩
  intro parent hparent
  cases hparent
  exact adopts_21.holds

/-- **A switch of two blocks leaves the schedule of the other chain, and the next slot that it leads ends the
node.** There is no watch: the node was started after the freeze window. -/
theorem stale_schedule_ends_node :
    ∃ (node : ForgeNode (ℕ × ℕ)) (rd : ForgeReading Unit) (slot generation : ℕ),
      ForgeRun Unit forkAt5Forest everySlot (Shallow forkAt5Forest) node ∧ node.data.k = 2 ∧
      rd.Within forkAt5Forest ∧ rd.Holds node.data.adoptedTip ∧ rd.credentialsValid = true ∧
      (slot, generation) ∈ node.armed ∧
      node.data.handleDueLead twentySlots decimalHash everySlot rd slot generation =
        .error (.validateHeader .vrfProof) := by
  have hshallow : Shallow forkAt5Forest scheduledFrom21.data (pointAt 23 13) := by
    have hchild : ∀ header header' : Header, forkAt5.get? header.hash = some header →
        forkAt5.get? header'.hash = some header' → header'.parent = some header.hash →
        forkAt5Forest.tree.Child header.point header'.point :=
      fun header header' h h' hparent ↦ ⟨header, header', h, rfl, h', rfl, hparent⟩
    have hfirst := hchild (headerAt 5 10 (some 3)) (headerAt 8 11 (some 5)) rfl rfl rfl
    have hsecond := hchild (headerAt 8 11 (some 5)) (headerAt 21 12 (some 8)) rfl rfl rfl
    have hfirst' := hchild (headerAt 5 10 (some 3)) (headerAt 9 11 (some 5)) rfl rfl rfl
    have hsecond' := hchild (headerAt 9 11 (some 5)) (headerAt 22 12 (some 9)) rfl rfl rfl
    have hthird' := hchild (headerAt 22 12 (some 9)) (headerAt 23 13 (some 22)) rfl rfl rfl
    exact .inr ⟨pointAt 5 10, .tail (.single hfirst) hsecond, .tail
      (.tail (.single hfirst') hsecond') hthird',
      by decide +kernel⟩
  refine ⟨switchedTo23, atSlot25, 25, 3, ?_, by decide +kernel, within_atSlot25, ?_, rfl, by
    decide +kernel, ?_⟩
  · exact .adoptedTip (run_scheduledFrom21 (.inl rfl)) within_atSlot25 adopts_23 hshallow
  · rw [show switchedTo23.data.adoptedTip = pointAt 23 13 by decide +kernel]
    exact adopts_23.holds
  · rfl

end Example

end Amaru
