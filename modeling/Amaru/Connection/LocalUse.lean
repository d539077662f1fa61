import Mathlib.Data.Finset.Basic
import Mathlib.Data.Finset.Lattice.Lemmas
import Mathlib.Order.Lattice
import Mathlib.Order.Nat

/-!
# The use of a connection

A connection that is established runs the initiators of its **use**: none, those that keep the connection
alive, or all of them. Another use may be asked for at any time. Initiators that the use no longer has are
asked to stop, and the connection waits until the last of them ended; a use that is asked for meanwhile is
only noted.

When the wait is over, the initiators that are missing are started, but none is asked to stop. So **the
initiators are those of the use that was last asked for, unless it was lowered below what is being
stopped** (`initiators_follow_use`): lowered to none while only the diffusion initiators stop, the others
run on and the use is reported as none (`lowered_use_leaves_initiators`).
-/

namespace Amaru

open List Finset

/-- Who opened the connection. -/
inductive Role
  | initiator
  | responder
deriving DecidableEq, Repr

/-- What a connection is used for by this node. -/
inductive MiniProtocolUse
  | none
  | maintenance
  | diffusion
deriving DecidableEq, Repr

/-- A supervised stage of a connection. -/
inductive ChildId
  | mux
  | handshake
  | keepAlive
  | txSubmission
  | chainSync
  | blockFetch
  | peerSharing
  /-- Any of the responders. -/
  | responder
deriving DecidableEq, Repr

namespace MiniProtocolUse

/-- Uses are ordered as they are listed. -/
def rank : MiniProtocolUse → ℕ
  | none => 0
  | maintenance => 1
  | diffusion => 2

instance : LinearOrder MiniProtocolUse :=
  LinearOrder.lift' rank fun a b h ↦ by cases a <;> cases b <;> first | rfl | cases h

/-- The initiators of a use, in the order in which they are started. Peers are asked for only if the other
side is advertisable. -/
def initiators (use : MiniProtocolUse) (advertisable : Bool) : List ChildId :=
  (if maintenance ≤ use then .keepAlive :: if advertisable then [.peerSharing] else [] else []) ++
    if use = diffusion then [.chainSync, .blockFetch, .txSubmission] else []

/-- The initiators that lowering a use drops, in the order in which they are asked to stop. -/
def dropped (actual desired : MiniProtocolUse) : List ChildId :=
  (if diffusion ≤ actual ∧ desired < diffusion then [.chainSync, .blockFetch, .txSubmission] else []) ++
    if maintenance ≤ actual ∧ desired < maintenance then [.keepAlive, .peerSharing] else []

variable {use : MiniProtocolUse}

theorem initiators_mono {use'} (h : use ≤ use') (advertisable : Bool) :
    ∀ child ∈ use.initiators advertisable, child ∈ use'.initiators advertisable := by
  revert h
  cases use <;> cases use' <;> cases advertisable <;> decide

/-- What lowering a use does not drop is what the lower use has. -/
theorem mem_initiators_iff {actual desired} (h : desired < actual) (advertisable : Bool) (child : ChildId) :
    child ∈ desired.initiators advertisable ↔
      child ∈ actual.initiators advertisable ∧ child ∉ dropped actual desired := by
  revert h
  cases actual <;> cases desired <;> cases advertisable <;> cases child <;> decide

end MiniProtocolUse

/-- A connection whose handshake is done. -/
structure Established where
  desiredUse : MiniProtocolUse
  actualUse : MiniProtocolUse
  duplex : Bool
  /-- Whether the negotiated version data allow to share peers. -/
  advertisable : Bool
  /-- The protocols whose initiator is kept. -/
  initiators : Finset ChildId
  /-- Whether the responder of chain-sync is kept. -/
  chainsyncResponder : Bool
  /-- The initiators that were asked to stop. -/
  stopping : Finset ChildId
deriving DecidableEq

/-- What the stage of a connection is told once the handshake is done. -/
inductive ConnectionMessage
  | disconnect
  | fetchBlocks
  | newTip
  | childDied (child : ChildId)
  | setLocalUse (use : MiniProtocolUse)
  | stopTimeout
deriving DecidableEq, Repr

/-- What the stage of a connection does to others. -/
inductive ConnectionEffect
  | register (child : ChildId)
  /-- `MsgDone` is to be sent. -/
  | askToStop (child : ChildId)
  /-- A frame that comes later is an error. -/
  | installDoneTrap (child : ChildId)
  /-- The limit for stopping diffusion, or maintenance only. -/
  | setStopTimeout (diffusion : Bool)
  | clearStopTimeout
  /-- The use that is reported to peer tracking. -/
  | localUseApplied (use : MiniProtocolUse)
  | requestRange
  | announceTip
  | chainsyncTerminated
deriving DecidableEq, Repr

namespace Established

variable (s : Established)

/-- The role, or a full-duplex connection, permits initiators. -/
def mayInitiate (role : Role) : Bool := role = .initiator || s.duplex

/-- Start the initiators of the desired use that do not run. -/
def startInitiators : Established × List ConnectionEffect :=
  let started := (s.desiredUse.initiators s.advertisable).filter (· ∉ s.initiators)
  ({ s with initiators := s.initiators ∪ started.toFinset, actualUse := s.desiredUse },
    started.map .register ++ [.localUseApplied s.desiredUse])

/-- Ask initiators to stop that the desired use does not have. -/
def beginStop : Established × List ConnectionEffect :=
  let asked := (MiniProtocolUse.dropped s.actualUse s.desiredUse).filter (· ∈ s.initiators)
  let stopping := s.stopping ∪ asked.toFinset
  if stopping = ∅ then
    ({ s with stopping, actualUse := s.desiredUse }, [.localUseApplied s.desiredUse])
  else
    ({ s with stopping }, asked.map .askToStop ++
      [.setStopTimeout (.diffusion ≤ s.actualUse && s.desiredUse < .diffusion)])

/-- Do what the desired use asks for, unless initiators are still being stopped. -/
def convergeUse (role : Role) : Established × List ConnectionEffect :=
  if s.stopping ≠ ∅ then (s, [])
  else if s.desiredUse < s.actualUse then s.beginStop
  else if s.actualUse < s.desiredUse ∧ s.mayInitiate role = true then s.startInitiators
  else if s.desiredUse ≠ s.actualUse then
    ({ s with actualUse := s.desiredUse }, [.localUseApplied s.desiredUse])
  else (s, [])

/-- What is left in the place of an initiator that ended. -/
def doneTrap : ChildId → List ConnectionEffect
  | .mux | .handshake | .responder => []
  | child => [.installDoneTrap child]

/-- An initiator ended that was asked to. -/
def onExpectedStop (role : Role) (child : ChildId) : Established × List ConnectionEffect :=
  let s := { s with stopping := s.stopping.erase child, initiators := s.initiators.erase child }
  if s.stopping = ∅ then
    let s := { s with actualUse := s.desiredUse }
    let applied := doneTrap child ++ [.clearStopTimeout, .localUseApplied s.desiredUse]
    if .none < s.desiredUse ∧ s.mayInitiate role = true then
      (s.startInitiators.1, applied ++ s.startInitiators.2)
    else (s, applied)
  else (s, doneTrap child)

/-- What is said when the connection is torn down. -/
def teardown : List ConnectionEffect :=
  if .chainSync ∈ s.initiators then [.chainsyncTerminated] else []

/-- Handle a message; the connection is torn down if this is an error. -/
def handle (role : Role) :
    ConnectionMessage → Except (List ConnectionEffect) (Established × List ConnectionEffect)
  | .disconnect => .error s.teardown
  | .childDied child =>
    if child ∈ s.stopping then .ok (s.onExpectedStop role child) else .error s.teardown
  | .stopTimeout => if s.stopping = ∅ then .ok (s, []) else .error s.teardown
  | .fetchBlocks => .ok (s,
      if .blockFetch ∉ s.stopping ∧ .blockFetch ∈ s.initiators then [.requestRange] else [])
  | .newTip => .ok (s, if s.chainsyncResponder then [.announceTip] else [])
  | .setLocalUse use => .ok (convergeUse { s with desiredUse := use } role)

end Established

/-- The use that a connection starts with. -/
def localUseForRole : Role → MiniProtocolUse
  | .initiator => .diffusion
  | .responder => .none

/-- The connection when the handshake is done. -/
def doHandshake (role : Role) (duplex advertisable : Bool) : Established × List ConnectionEffect :=
  let established : Established := {
    desiredUse := localUseForRole role
    actualUse := .none
    duplex, advertisable
    initiators := ∅
    chainsyncResponder := role = .responder || duplex
    stopping := ∅ }
  if established.mayInitiate role ∧ .none < localUseForRole role then established.startInitiators
  else ({ established with actualUse := localUseForRole role }, [.localUseApplied (localUseForRole role)])

/-! ### A connection and what is known of it -/

/-- A connection, the use that peer tracking has for it, and the one that was last asked for. -/
structure TrackedUse where
  established : Established
  reported : MiniProtocolUse
  requested : MiniProtocolUse
deriving DecidableEq

/-- The use that peer tracking has after an effect. -/
def ConnectionEffect.report (reported : MiniProtocolUse) : ConnectionEffect → MiniProtocolUse
  | .localUseApplied use => use
  | .register _ | .askToStop _ | .installDoneTrap _ | .setStopTimeout _ | .clearStopTimeout | .requestRange
  | .announceTip | .chainsyncTerminated => reported

/-- The use that was last asked for after a message. -/
def ConnectionMessage.request (requested : MiniProtocolUse) : ConnectionMessage → MiniProtocolUse
  | .setLocalUse use => use
  | .disconnect | .fetchBlocks | .newTip | .childDied _ | .stopTimeout => requested

namespace TrackedUse

/-- The connection handles a message. -/
def step (c : TrackedUse) (role : Role) (msg : ConnectionMessage) :
    Except (List ConnectionEffect) TrackedUse :=
  (c.established.handle role msg).map fun (established, effects) ↦
    ⟨established, effects.foldl ConnectionEffect.report c.reported, msg.request c.requested⟩

/-- A connection when the handshake is done. -/
def start (role : Role) (duplex advertisable : Bool) : TrackedUse where
  established := (doHandshake role duplex advertisable).1
  reported := (doHandshake role duplex advertisable).2.foldl ConnectionEffect.report .none
  requested := localUseForRole role

/-- Only handlers that were asked to stop end, and all of them before the limit. -/
def Conforms (c : TrackedUse) : ConnectionMessage → Prop
  | .disconnect => False
  | .childDied child => child ∈ c.established.stopping
  | .stopTimeout => c.established.stopping = ∅
  | .fetchBlocks | .newTip | .setLocalUse _ => True

instance (c : TrackedUse) : DecidablePred c.Conforms
  | .disconnect => instDecidableFalse
  | .childDied child => inferInstanceAs (Decidable (child ∈ c.established.stopping))
  | .stopTimeout => inferInstanceAs (Decidable (c.established.stopping = ∅))
  | .fetchBlocks | .newTip | .setLocalUse _ => instDecidableTrue

/-- The initiators of a use, as far as the role permits any. -/
def wanted (c : TrackedUse) (role : Role) (use : MiniProtocolUse) : Finset ChildId :=
  if c.established.mayInitiate role then (use.initiators c.established.advertisable).toFinset else ∅

/-- A use that is asked for while initiators are being stopped has all others that run. -/
def Foreseen (c : TrackedUse) (role : Role) : ConnectionMessage → Prop
  | .setLocalUse use => c.established.stopping ≠ ∅ →
      c.established.initiators \ c.established.stopping ⊆ c.wanted role use
  | .disconnect | .fetchBlocks | .newTip | .childDied _ | .stopTimeout => True

/-- The connections that are reached by messages that meet a condition. -/
inductive Run (role : Role) (condition : TrackedUse → ConnectionMessage → Prop) : TrackedUse → Prop
  | start (duplex advertisable : Bool) : Run role condition (.start role duplex advertisable)
  | step {c c'} (msg : ConnectionMessage) (hrun : Run role condition c) (hcondition : condition c msg)
    (hstep : c.step role msg = .ok c') : Run role condition c'

/-- What holds of a connection: with no initiator being stopped it is as asked for; else those that are not
being stopped are wanted. -/
structure Inv (c : TrackedUse) (role : Role) : Prop where
  desiredUse_eq : c.established.desiredUse = c.requested
  settled : c.established.stopping = ∅ → c.established.actualUse = c.requested ∧
    c.reported = c.requested ∧ c.established.initiators = c.wanted role c.requested
  waiting : c.established.stopping ≠ ∅ → c.established.mayInitiate role = true ∧
    c.established.initiators \ c.established.stopping ⊆ c.wanted role c.requested

variable {c c' : TrackedUse} {role : Role} {msg : ConnectionMessage} {s : Established} {child : ChildId}

theorem mem_wanted : child ∈ c.wanted role use ↔
    c.established.mayInitiate role = true ∧ child ∈ use.initiators c.established.advertisable := by
  rw [wanted]
  split_ifs with hmay <;> simp [hmay]

/-- The use is reported last when initiators are started. -/
theorem report_startInitiators (s : Established) (reported : MiniProtocolUse) :
    s.startInitiators.2.foldl ConnectionEffect.report reported = s.desiredUse := by
  rw [Established.startInitiators, foldl_append]
  rfl

/-- Starting the missing initiators leaves those that are wanted, if nothing else ran. -/
theorem initiators_startInitiators
    (h : ∀ child ∈ s.initiators, child ∈ s.desiredUse.initiators s.advertisable) :
    s.startInitiators.1.initiators = (s.desiredUse.initiators s.advertisable).toFinset := by
  ext child
  simp only [Established.startInitiators, mem_union, mem_toFinset, mem_filter, decide_eq_true_eq]
  refine ⟨fun hmem ↦ hmem.elim (h child) And.left, fun hmem ↦ ?_⟩
  by_cases hruns : child ∈ s.initiators
  · exact .inl hruns
  · exact .inr ⟨hmem, hruns⟩

theorem Inv.of_settled (hdesired : s.desiredUse = use)
    (hactual : s.actualUse = use) (hstopping : s.stopping = ∅)
    (hinitiators : s.initiators = wanted ⟨s, use, use⟩ role use) : Inv ⟨s, use, use⟩ role :=
  ⟨hdesired, fun _ ↦ ⟨hactual, rfl, hinitiators⟩, fun hne ↦ absurd hstopping hne⟩

theorem Inv.start (role : Role) (duplex advertisable : Bool) :
    Inv (.start role duplex advertisable) role := by
  cases role <;> cases duplex <;> cases advertisable <;> exact .of_settled rfl rfl rfl (by decide)

/-- Another use is asked for while no initiator is being stopped. -/
theorem Inv.convergeUse (h : c.Inv role) (hstopping : c.established.stopping = ∅) (use : MiniProtocolUse) :
    Inv ⟨(Established.convergeUse { c.established with desiredUse := use } role).1,
      (Established.convergeUse { c.established with desiredUse := use } role).2.foldl
        ConnectionEffect.report c.reported, use⟩ role := by
  obtain ⟨hactual, hreported, hinitiators⟩ := h.settled hstopping
  have hmem : ∀ child, child ∈ c.established.initiators ↔ c.established.mayInitiate role = true ∧
      child ∈ c.requested.initiators c.established.advertisable := by
    intro child
    rw [hinitiators, mem_wanted]
  rw [Established.convergeUse, if_neg (not_not.2 hstopping)]
  split_ifs with hlower hraise hother
  · -- the use is lowered: what is not dropped is wanted
    have hkept : ∀ child ∈ c.established.initiators,
        child ∉ MiniProtocolUse.dropped c.established.actualUse use →
        c.established.mayInitiate role = true ∧ child ∈ use.initiators c.established.advertisable := by
      intro child hruns hnot
      refine ⟨((hmem child).1 hruns).1, (MiniProtocolUse.mem_initiators_iff hlower _ _).2 ⟨?_, hnot⟩⟩
      rw [hactual]
      exact ((hmem child).1 hruns).2
    rw [Established.beginStop]
    rw [hstopping, empty_union]
    split_ifs with hnone
    · refine .of_settled rfl rfl hnone (ext fun child ↦ ?_)
      rw [toFinset_eq_empty_iff, filter_eq_nil_iff] at hnone
      rw [mem_wanted]
      refine ⟨fun hruns ↦ hkept child hruns fun hdrop ↦ hnone child hdrop (by simpa using hruns), ?_⟩
      rintro ⟨hmay, hin⟩
      exact (hmem child).2 ⟨hmay, hactual ▸ ((MiniProtocolUse.mem_initiators_iff hlower _ _).1 hin).1⟩
    · refine ⟨rfl, fun hempty ↦ absurd hempty hnone, fun _ ↦ ⟨?_, fun child hruns ↦ ?_⟩⟩
      · obtain ⟨child, hasked⟩ := nonempty_iff_ne_empty.2 hnone
        have hruns := (mem_filter.1 (mem_toFinset.1 hasked)).2
        exact ((hmem child).1 (by simpa using hruns)).1
      · obtain ⟨hruns, hnot⟩ := mem_sdiff.1 hruns
        have hdrop : child ∉ MiniProtocolUse.dropped c.established.actualUse use := fun hdrop ↦
          hnot (mem_toFinset.2 (mem_filter.2 ⟨hdrop, by simpa using hruns⟩))
        exact mem_wanted.2 (hkept child hruns hdrop)
  · -- the use is raised, and initiators are permitted
    have hmay : c.established.mayInitiate role = true := hraise.2
    rw [report_startInitiators]
    refine .of_settled rfl rfl hstopping ?_
    rw [initiators_startInitiators fun child hruns ↦ ?_]
    · exact (if_pos hmay).symm
    · exact MiniProtocolUse.initiators_mono (hactual ▸ hraise.1.le) _ child ((hmem child).1 hruns).2
  · -- the use is raised, and there is nothing to start
    have hmay : c.established.mayInitiate role = false := by
      refine Bool.eq_false_iff.2 fun hmay ↦ hraise ⟨lt_of_le_of_ne (not_lt.1 hlower) (Ne.symm hother), hmay⟩
    refine .of_settled rfl rfl hstopping ?_
    change c.established.initiators = if c.established.mayInitiate role then _ else ∅
    rw [hmay, hinitiators, wanted, hmay]
    rfl
  · obtain rfl : use = c.requested := (not_not.1 hother).trans hactual
    exact ⟨rfl, fun _ ↦ ⟨hactual, hreported, hinitiators⟩, fun hne ↦ absurd hstopping hne⟩

theorem Inv.onExpectedStop (h : c.Inv role) (hchild : child ∈ c.established.stopping) :
    Inv ⟨(c.established.onExpectedStop role child).1,
      (c.established.onExpectedStop role child).2.foldl ConnectionEffect.report c.reported,
      c.requested⟩ role := by
  obtain ⟨hmay, hwaiting⟩ := h.waiting (ne_empty_of_mem hchild)
  -- an initiator that neither ended nor is being stopped was not being stopped before
  have hsub : ∀ other ∈ c.established.initiators.erase child, other ∉ c.established.stopping.erase child →
      other ∈ c.requested.initiators c.established.advertisable := by
    intro other hruns hnot
    obtain ⟨hne, hruns⟩ := mem_erase.1 hruns
    exact (mem_wanted.1 (hwaiting (mem_sdiff.2 ⟨hruns, fun hstop ↦ hnot (mem_erase.2 ⟨hne, hstop⟩)⟩))).2
  rw [Established.onExpectedStop]
  dsimp only
  split_ifs with hlast hstart
  · rw [foldl_append, report_startInitiators, h.desiredUse_eq]
    refine .of_settled rfl rfl hlast ?_
    rw [initiators_startInitiators fun other hruns ↦ ?_]
    · exact (if_pos hmay).symm
    · exact hsub other hruns (hlast ▸ notMem_empty other)
  · -- nothing is to be started: the use is none
    have hnone : c.requested = .none := by
      have hnot := fun hlt ↦ hstart ⟨hlt, hmay⟩
      rw [h.desiredUse_eq] at hnot
      revert hnot
      cases c.requested <;> decide
    rw [foldl_append]
    rw [h.desiredUse_eq]
    refine .of_settled rfl rfl hlast (ext fun other ↦ ?_)
    rw [mem_wanted]
    refine ⟨fun hruns ↦ ⟨hmay, hsub other hruns (hlast ▸ notMem_empty other)⟩, fun hin ↦ ?_⟩
    rw [hnone] at hin
    exact absurd hin.2 not_mem_nil
  · refine ⟨h.desiredUse_eq, fun hempty ↦ absurd hempty hlast, fun _ ↦ ⟨hmay, fun other hruns ↦ ?_⟩⟩
    obtain ⟨hruns, hnot⟩ := mem_sdiff.1 hruns
    exact mem_wanted.2 ⟨hmay, hsub other hruns hnot⟩

theorem Inv.step (h : c.Inv role) (hforeseen : c.Foreseen role msg) (hstep : c.step role msg = .ok c') :
    c'.Inv role := by
  rw [TrackedUse.step] at hstep
  cases msg with
  | disconnect => cases hstep
  | childDied child =>
    rw [Established.handle] at hstep
    split_ifs at hstep with hchild <;> cases hstep
    exact h.onExpectedStop hchild
  | stopTimeout =>
    rw [Established.handle] at hstep
    split_ifs at hstep <;> cases hstep
    exact h
  | fetchBlocks | newTip =>
    cases hstep
    refine ⟨h.desiredUse_eq, fun hempty ↦ ?_, h.waiting⟩
    obtain ⟨hactual, hreported, hinitiators⟩ := h.settled hempty
    refine ⟨hactual, ?_, hinitiators⟩
    split_ifs <;> exact hreported
  | setLocalUse use =>
    cases hstep
    by_cases hstopping : c.established.stopping = ∅
    · exact h.convergeUse hstopping use
    · rw [Established.convergeUse, if_pos hstopping]
      exact ⟨rfl, fun hempty ↦ absurd hempty hstopping, fun _ ↦ ⟨(h.waiting hstopping).1,
        hforeseen hstopping⟩⟩

/-- A message that conforms does not tear the connection down. -/
theorem exists_step_of_conforms (h : c.Conforms msg) : ∃ c', c.step role msg = .ok c' := by
  cases msg with
  | disconnect => exact h.elim
  | childDied | stopTimeout => exact ⟨_, congrArg (Except.map _) (if_pos h)⟩
  | fetchBlocks | newTip | setLocalUse use => exact ⟨_, rfl⟩

/-- **The initiators that run are those of the use that was last asked for**, and that use is reported, in
every run in which no use is asked for that is below what is being stopped; and no such run, foreseen or
not, tears the connection down. -/
theorem initiators_follow_use :
    (Run role Conforms c → ∀ msg, c.Conforms msg → ∃ c', c.step role msg = .ok c') ∧
    (Run role (fun c msg ↦ c.Conforms msg ∧ c.Foreseen role msg) c → c.established.stopping = ∅ →
      c.established.initiators = c.wanted role c.requested ∧ c.reported = c.requested) := by
  refine ⟨fun _ msg ↦ exists_step_of_conforms, fun hrun hstopping ↦ ?_⟩
  have hinv : c.Inv role := by
    clear hstopping
    induction hrun with
    | start duplex advertisable => exact .start role duplex advertisable
    | step msg _ hcondition hstep ih => exact ih.step hcondition.2 hstep
  obtain ⟨-, hreported, hinitiators⟩ := hinv.settled hstopping
  exact ⟨hinitiators, hreported⟩

/-- A connection that this node opened, lowered to maintenance. -/
def lowering : TrackedUse where
  established := { (doHandshake .initiator true true).1 with
    desiredUse := .maintenance, stopping := {.chainSync, .blockFetch, .txSubmission} }
  reported := .diffusion
  requested := .maintenance

theorem run_lowering {condition} (h : condition (.start .initiator true true) (.setLocalUse .maintenance)) :
    Run .initiator condition lowering :=
  .step (.setLocalUse .maintenance) (.start true true) h (by decide)

/-- Raised again while it is lowered, it has all its initiators in the end. -/
theorem initiators_follow_use_raised : ∃ c : TrackedUse, c.requested = .diffusion ∧
    c.established.stopping = ∅ ∧ c.established.initiators = c.wanted .initiator .diffusion := by
  have hfirst : Run .initiator (fun c msg ↦ c.Conforms msg ∧ c.Foreseen .initiator msg) lowering :=
    run_lowering ⟨trivial, fun hne ↦ absurd rfl hne⟩
  refine ⟨_, rfl, rfl, (initiators_follow_use.2 (.step (.childDied .chainSync)
    (.step (.childDied .txSubmission)
    (.step (.childDied .blockFetch) (.step (.setLocalUse .diffusion) hfirst ⟨trivial, fun _ ↦ ?_⟩ rfl)
      ⟨?_, trivial⟩ rfl) ⟨?_, trivial⟩ rfl) ⟨?_, trivial⟩ rfl) ?_).1⟩ <;> decide

/-- **Initiators run on that no use asks for**: lowered to none while the diffusion initiators stop, a
connection keeps the others, and reports that it has none. -/
theorem lowered_use_leaves_initiators : ∃ c, Run .initiator Conforms c ∧ c.requested = .none ∧
    c.reported = .none ∧ c.established.stopping = ∅ ∧ c.wanted .initiator .none = ∅ ∧
    c.established.initiators = {.keepAlive, .peerSharing} := by
  have hfirst : Run .initiator Conforms lowering := run_lowering trivial
  refine ⟨_, .step (.childDied .chainSync) (.step (.childDied .txSubmission)
    (.step (.childDied .blockFetch) (.step (.setLocalUse .none) hfirst trivial rfl) ?_ rfl) ?_ rfl) ?_ rfl,
    rfl, rfl, rfl, rfl, ?_⟩ <;> decide

end TrackedUse

end Amaru
