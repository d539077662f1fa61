import Amaru.Consensus.Nonces

/-!
# The stage that forges blocks

A pool knows the slots that it leads before the epoch begins: the schedule of an epoch is computed from its
nonce, in the background, and kept by epoch. The nonce of the next epoch is known as soon as a tip is in the
freeze window. The stage **watches** the first such header: if a tip is adopted that does not descend from
it, the schedule that was computed from it is dropped.

A timer wakes the stage for the next slot that it leads. It signs a header on top of the adopted tip and
validates it like any other. **A header that fails ends the node**: the source takes this for an invariant.

A step is given what it reads: the chain store with the nonces, and what the clock, the mempool and the
credentials say.
-/

namespace Amaru

/-! ### The freeze window -/

/-- The first header of a freeze window. The schedule of the next epoch is computed from its candidate
nonce. -/
structure FreezeWatch where
  epoch : ℕ
  point : Point
deriving DecidableEq, Repr

/-- The epoch whose schedule is computed. -/
def FreezeWatch.scheduledEpoch (watch : FreezeWatch) : ℕ := watch.epoch + 1

/-- What to do about the watch and the schedules after a tip is adopted. -/
structure FreezeDecision where
  freeze : Option FreezeWatch
  dropEpoch : Option ℕ
  scheduleEpoch : Option ℕ
deriving DecidableEq, Repr

/-- The blocks since the header that is watched. -/
def freezeDepth (freezeHeight tipHeight : ℕ) : ℕ := tipHeight - freezeHeight

def scheduleSettled (blocksSinceFreeze k : ℕ) : Bool := k ≤ blocksSinceFreeze

/-- Decide about the watch and the schedules. -/
def decideFreeze (freeze : Option FreezeWatch) (tip : FreezeWatch) (inFreezeWindow freezeIsAncestor : Bool)
    (k : ℕ) : FreezeDecision :=
  let rolledBack := freeze.isSome && !freezeIsAncestor
  let dropEpoch := (freeze.filter fun _ ↦ rolledBack).map FreezeWatch.scheduledEpoch
  if rolledBack then
    if inFreezeWindow then ⟨some tip, dropEpoch, some tip.scheduledEpoch⟩ else ⟨none, dropEpoch, none⟩
  else if inFreezeWindow then match freeze with
    | some watch =>
      if watch.epoch = tip.epoch then ⟨some watch, none, none⟩ else ⟨some tip, none, some tip.scheduledEpoch⟩
    | none => ⟨some tip, none, some tip.scheduledEpoch⟩
  else match freeze with
    | some watch =>
      if scheduleSettled (freezeDepth watch.point.blockHeight tip.point.blockHeight) k then ⟨none, none, none⟩
      else ⟨some watch, none, none⟩
    | none => ⟨none, none, none⟩

/-! ### Schedules -/

/-- The slots of an epoch that the pool leads, with what proves it. -/
structure EpochSchedule (Cert : Type) where
  epoch : ℕ
  nonce : ℕ
  slots : SortedMap ℕ Cert

/-- A schedule is being computed from a nonce, or is there. -/
inductive ScheduleState (Cert : Type)
  | pending (nonce : ℕ)
  | ready (schedule : EpochSchedule Cert)

/-- The nonce that a schedule is computed from. -/
def ScheduleState.nonce {Cert : Type} : ScheduleState Cert → ℕ
  | .pending nonce => nonce
  | .ready schedule => schedule.nonce

/-- The schedules, by epoch. -/
structure Schedule (Cert : Type) where
  epochs : SortedMap ℕ (ScheduleState Cert)

namespace Schedule

variable {Cert : Type} (schedule : Schedule Cert)

/-- Ask for the schedule of an epoch, unless it is there or asked for. -/
def request (epoch nonce : ℕ) : Schedule Cert × Bool :=
  match schedule.epochs.get? epoch with
  | some state =>
    if state.nonce = nonce then (schedule, false)
    else (⟨schedule.epochs.insert epoch (.pending nonce)⟩, true)
  | none => (⟨schedule.epochs.insert epoch (.pending nonce)⟩, true)

/-- Take a schedule that was asked for. -/
def install (result : EpochSchedule Cert) : Schedule Cert :=
  match schedule.epochs.get? result.epoch with
  | some (.pending nonce) =>
    if nonce = result.nonce then ⟨schedule.epochs.insert result.epoch (.ready result)⟩ else schedule
  | _ => schedule

def forget (epoch : ℕ) : Schedule Cert := ⟨schedule.epochs.erase epoch⟩

/-- Leave out the slots up to one. -/
def dropThrough (slot : ℕ) : Schedule Cert :=
  ⟨schedule.epochs.map fun _ state ↦ match state with
    | .pending nonce => .pending nonce
    | .ready ready => .ready { ready with slots := ready.slots.filter fun scheduled _ ↦ slot < scheduled }⟩

def pruneBefore (keepFrom : ℕ) : Schedule Cert := ⟨schedule.epochs.filter fun epoch _ ↦ keepFrom ≤ epoch⟩

def knows (epoch : ℕ) : Bool := schedule.epochs.contains epoch

/-- The schedules that are there. -/
def ready : List (EpochSchedule Cert) := schedule.epochs.values.filterMap fun
  | .ready ready => some ready
  | .pending _ => none

/-- The slots that are led, in order. -/
def leads : List ℕ := schedule.ready.flatMap fun ready ↦ ready.slots.keys

/-- What proves that a slot is led. -/
def leadAt (slot : ℕ) : Option Cert := schedule.ready.findSome? fun ready ↦ ready.slots.get? slot

end Schedule

/-! ### What a step reads -/

/-- What is given of the keys of the pool. -/
structure Vrf (Cert : Type) where
  /-- What the pool can prove for a slot and a nonce. -/
  prove : ℕ → ℕ → Cert
  verify : ℕ → ℕ → Cert → Bool
  output : Cert → ℕ
  /-- The stake of the pool is enough to lead a slot. -/
  isLeader : ℕ → Cert → Bool

/-- A computation in the background: the slots of an epoch from one on and up to another. -/
structure LeaderScheduleEffect where
  epoch : ℕ
  nonce : ℕ
  start : ℕ
  stop : ℕ
deriving DecidableEq, Repr

/-- The slots that are led. -/
def LeaderScheduleEffect.leadSlots {Cert : Type} (vrf : Vrf Cert) (effect : LeaderScheduleEffect) :
    SortedMap ℕ Cert :=
  .ofList <| (List.range' effect.start (effect.stop - effect.start)).filterMap fun slot ↦
    let cert := vrf.prove slot effect.nonce
    if vrf.isLeader slot cert then some (slot, cert) else none

/-- The schedule that is computed. It is empty if the stake of the pool is not known. -/
def LeaderScheduleEffect.scheduleFor {Cert : Type} (vrf : Vrf Cert) (effect : LeaderScheduleEffect)
    (stakeKnown : Bool) : EpochSchedule Cert where
  epoch := effect.epoch
  nonce := effect.nonce
  slots := if stakeKnown then effect.leadSlots vrf else ∅

/-- How transactions are taken for a block. -/
inductive TakeForForge
  | taken
  /-- The ledger or the mempool is not at the parent. -/
  | tipsChanged
  /-- The block is forged without transactions. -/
  | failed
deriving DecidableEq, Repr

/-- How a header is signed. -/
inductive SignHeader
  | signed
  /-- The certificate does not cover the period. -/
  | period
  | failed
deriving DecidableEq, Repr

/-- What a step reads. -/
structure ForgeReading (Body : Type) where
  store : ChainStore Body
  nonces : SortedMap ℕ Nonces
  /-- It is too late to forge in a slot. -/
  slotClosed : ℕ → Bool
  /-- The time when a slot begins is known. -/
  slotPlaced : ℕ → Bool
  /-- The stage wakes too late. -/
  wokeLate : Bool
  takeForForge : TakeForForge
  signHeader : SignHeader
  /-- The pool is known with its keys, and its certificate and signature are valid. -/
  credentialsValid : Bool
  /-- The block can be made of the header and the transactions. -/
  sealBlock : Bool
  /-- The store takes the header, and then the block. -/
  storeHeader : Bool
  storeBlock : Bool
  /-- The hash of the header that is forged. -/
  headerHash : ℕ

/-! ### The stage -/

/-- What the stage keeps. -/
structure ForgeData (Cert : Type) where
  k : ℕ
  adoptedTip : Point
  adoptedParent : Point
  schedule : Schedule Cert
  scheduleGeneration : ℕ
  freeze : Option FreezeWatch
  /-- The slot and the parent of the last block that was published. -/
  published : Option (ℕ × ℕ)

/-- The stage at start. -/
def ForgeData.new {Cert : Type} (k : ℕ) : ForgeData Cert where
  k
  adoptedTip := .origin
  adoptedParent := .origin
  schedule := ⟨∅⟩
  scheduleGeneration := 0
  freeze := none
  published := none

/-- What the stage does to others. -/
inductive ForgeEffect
  | detach (effect : LeaderScheduleEffect)
  /-- A timer is set. -/
  | schedule (slot generation : ℕ)
  /-- A block is stored and sent. -/
  | forged (tip parent : Point) (nonces : Nonces)

/-- Why a header that was forged is not valid. -/
inductive ForgedHeaderError
  | nonces (error : NoncesError)
  | credentials
  | vrfProof
  | leaderStake
deriving DecidableEq, Repr

/-- Why the node ends. -/
inductive ForgeError
  | signHeader
  | validateHeader (error : ForgedHeaderError)
  | sealBlock
  | storeHeader
  | storeBlock
deriving DecidableEq, Repr

/-- A header before it is signed. -/
structure HeaderDraft (Cert : Type) where
  blockNumber : ℕ
  slot : ℕ
  prevHash : ℕ
  vrfResult : Cert

section Stage

variable {Body Cert : Type} (params : ConsensusParameters) (hash : NonceHash) (vrf : Vrf Cert)
  (reading : ForgeReading Body)

/-- Validate a header that was forged. -/
def validateHeader (draft : HeaderDraft Cert) : Except ForgedHeaderError Nonces :=
  match evolveNonce params hash reading.nonces.get? reading.store.loadHeader draft.slot (some draft.prevHash)
    (vrf.output draft.vrfResult) with
  | .error error => .error (.nonces error)
  | .ok nonces =>
    if !reading.credentialsValid then .error .credentials
    else if !vrf.verify draft.slot nonces.active draft.vrfResult then .error .vrfProof
    else if !vrf.isLeader draft.slot draft.vrfResult then .error .leaderStake
    else .ok nonces

/-- The nonce that the schedule of an epoch is computed from. -/
def scheduleNonce (adoptedTip : Point) (epoch : ℕ) : Option ℕ := do
  let header ← reading.store.loadHeader adoptedTip.hash
  let nonces ← reading.nonces.get? header.hash
  some (nonces.scheduled hash reading.store.loadHeader epoch)

/-- The slots of an epoch. -/
def epochSlots (epoch : ℕ) : Option (ℕ × ℕ) := do
  let start ← (EraHistory.epochStart epoch params.eraHistory.eras).toOption
  let stop ← (EraHistory.epochStart (epoch + 1) params.eraHistory.eras).toOption
  some (start, stop)

namespace ForgeData

variable (data : ForgeData Cert)

/-- Leave out the slots for which it is too late. -/
def dropElapsed : ForgeData Cert :=
  match (data.schedule.leads.filter reading.slotClosed).getLast? with
  | some slot => { data with schedule := data.schedule.dropThrough slot }
  | none => data

/-- Set the timer for the next slot that is led. A timer that was set before is of an older generation. -/
def armNextLead : ForgeData Cert × List ForgeEffect :=
  let data := { data with scheduleGeneration := data.scheduleGeneration + 1 }
  let data := data.dropElapsed reading
  match data.schedule.leads.find? fun slot ↦ !reading.slotClosed slot with
  | some slot => (data, if reading.slotPlaced slot then [.schedule slot data.scheduleGeneration] else [])
  | none => (data, [])

/-- Ask for the schedule of an epoch. -/
def requestSchedule (progress : ForgeData Cert × List ForgeEffect) (epoch : ℕ) :
    ForgeData Cert × List ForgeEffect :=
  let (data, effects) := progress
  match scheduleNonce hash reading data.adoptedTip epoch with
  | none => (data, effects)
  | some nonce =>
    let (schedule, isNew) := data.schedule.request epoch nonce
    if !isNew then (data, effects)
    else match epochSlots params epoch with
      | none => ({ data with schedule := schedule.forget epoch }, effects)
      | some (start, stop) =>
        ({ data with schedule }, effects ++ [.detach { epoch, nonce, start, stop }])

/-- Whether the header that is watched is an ancestor of another. -/
def freezeIsAncestor (header : Header) : Bool :=
  match data.freeze with
  | some watch => match reading.store.findCommonAncestor header.hash watch.point.hash with
    | .found point => point.hash = watch.point.hash
    | _ => false
  | none => true

/-- Decide about the watch, and which schedules to ask for. -/
def followTip (header : Header) (epoch : ℕ) (inFreezeWindow : Bool) : ForgeData Cert × List ℕ :=
  let decision := decideFreeze data.freeze ⟨epoch, header.point⟩ inFreezeWindow
    (data.freezeIsAncestor reading header) data.k
  let schedule := decision.dropEpoch.elim data.schedule data.schedule.forget
  let schedule := schedule.pruneBefore epoch
  let data := { data with schedule, freeze := decision.freeze }
  (data, (if !schedule.knows epoch then [epoch] else []) ++ decision.scheduleEpoch.toList)

/-- A tip is adopted. -/
def handleAdoptedTip (tip parent : Point) : ForgeData Cert × List ForgeEffect :=
  let data := { data with adoptedTip := tip, adoptedParent := parent }
  let (data, toSchedule) :=
    if tip = .origin then (data, [])
    else match reading.store.loadHeader tip.hash with
      | none => (data, [])
      | some header => match params.randomnessStabilityWindow header.slot with
        | .error _ => (data, [])
        | .ok (epoch, inStabilityWindow) => data.followTip reading header epoch (!inStabilityWindow)
  let (data, effects) := toSchedule.foldl (requestSchedule params hash reading) (data, [])
  let (data, effects') := data.armNextLead reading
  (data, effects ++ effects')

/-- A schedule is there. -/
def handleLeaderSchedule (result : EpochSchedule Cert) : ForgeData Cert × List ForgeEffect :=
  { data with schedule := data.schedule.install result }.armNextLead reading

/-- The parent of a block in a slot, unless the slot is missed. -/
def parentToExtend (slot : ℕ) : Option Point :=
  if data.adoptedTip.slotOrDefault < slot then some data.adoptedTip
  else if data.adoptedTip.slotOrDefault = slot then
    if data.adoptedParent = .origin ∧ 1 < data.adoptedTip.blockHeight then none else some data.adoptedParent
  else none

/-- Forge a block on top of a parent. -/
def forge (slot : ℕ) (parent : Point) (cert : Cert) : Except ForgeError (ForgeData Cert × List ForgeEffect) :=
  if data.published = some (slot, parent.hash) then .ok (data.armNextLead reading)
  else if reading.takeForForge = .tipsChanged then .ok (data.armNextLead reading)
  else match reading.signHeader with
    | .period => .ok (data.armNextLead reading)
    | .failed => .error .signHeader
    | .signed =>
      let draft : HeaderDraft Cert :=
        { blockNumber := parent.blockHeight + 1, slot, prevHash := parent.hash, vrfResult := cert }
      match validateHeader params hash vrf reading draft with
      | .error error => .error (.validateHeader error)
      | .ok nonces =>
        if !reading.sealBlock then .error .sealBlock
        else if !reading.storeHeader then .error .storeHeader
        else if !reading.storeBlock then .error .storeBlock
        else
          let tip := .specific slot reading.headerHash draft.blockNumber
          let (data, effects) := { data with published := some (slot, parent.hash) }.armNextLead reading
          .ok (data, .forged tip parent nonces :: effects)

/-- A slot is due. The schedule may no longer lead it. -/
def handleDueLead (slot generation : ℕ) : Except ForgeError (ForgeData Cert × List ForgeEffect) :=
  if generation ≠ data.scheduleGeneration then .ok (data, [])
  else
    let passed := { data with schedule := data.schedule.dropThrough slot }
    if reading.wokeLate then .ok (passed.armNextLead reading)
    else match data.parentToExtend slot, data.schedule.leadAt slot with
      | some parent, some cert => passed.forge params hash vrf reading slot parent cert
      | _, _ => .ok (passed.armNextLead reading)

end ForgeData

end Stage

end Amaru
