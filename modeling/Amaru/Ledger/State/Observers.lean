import Amaru.Ledger.State.Chain

/-!
# Observers of the ledger

An observer is told of every block that is adopted, and of every block that is undone. If it pushes and pops
the points of these blocks, it has the chain of the ledger.

Rolling forward tells of its block. A switch to a fork is silent while the blocks of the fork are applied.
Once it is completed, it tells of the blocks that were rolled back, newest first, and of those of the fork,
which it **looks up among the volatile blocks**. Two things go wrong:

* a fork that is applied in part changes the chain, and nothing is told;
* the first blocks of a fork may be written to the store before the last is applied: when the fork has more
  blocks than the volatile window holds, or when a boundary is forced to the store. The look-up then panics.

`observers_lose_track` has an example of each. **Nothing else goes wrong** (`observers_mirror_chain`).
-/

namespace Amaru

open List VolatileDB.Recovery Block State Option

/-- What a block produced and consumed. -/
abbrev UtxoDiff := DiffSet TransactionInput MemoizedTransactionOutput

/-- A block that was applied. -/
structure AdoptedBlock (Body : Type*) where
  point : Point
  epoch : ℕ
  blockHeight : ℕ
  block : Block Body
  utxo : UtxoDiff

/-- A block that was applied before, and was discarded. -/
structure UndoneBlock where
  point : Point
  epoch : ℕ
  blockHeight : ℕ
  utxo : UtxoDiff

/-- What an observer is told. -/
inductive LedgerBlockEvent (Body : Type*)
  | adopted (block : AdoptedBlock Body)
  | undone (block : UndoneBlock)

section Events

variable {Body : Type} (env : Environment Body)

def AdoptedBlock.fromBlock (epoch : ℕ) (block : Block Body) (fragment : VolatileFragment) :
    AdoptedBlock Body where
  point := block.point
  epoch
  blockHeight := block.height
  block
  utxo := fragment.utxo

def UndoneBlock.fromAnchored (fragment : AnchoredVolatileFragment) (epoch : ℕ) : UndoneBlock where
  point := fragment.point
  epoch
  blockHeight := fragment.point.blockHeight
  utxo := fragment.fragment.utxo

namespace State

/-- Tell of a block that was applied. There is no answer if the source panics: the block is not among the
volatile ones, or its epoch is not known. -/
def notifyAdopted (block : Block Body) (anchored : Option AnchoredVolatileFragment) :
    Option (LedgerBlockEvent Body) := do
  let anchored ← anchored
  let epoch ← (env.epochOf block.slot).toOption
  some (.adopted (.fromBlock epoch block anchored.fragment))

/-- Tell of a block that was discarded. -/
def notifyUndone (fragment : AnchoredVolatileFragment) : Option (LedgerBlockEvent Body) := do
  let epoch ← (env.epochOf fragment.point.slotOrDefault).toOption
  some (.undone (.fromAnchored fragment epoch))

/-- What is told after rolling forward. -/
def rollForwardEvents (st' : State) (block : Block Body) :
    BlockValidation → Option (List (LedgerBlockEvent Body))
  | .valid => (notifyAdopted env block st'.volatile.viewBack).map ([·])
  | .invalid _ => some []

/-- What is told after a switch, which keeps what it rolled back until then. -/
def switchToForkEvents (guard : RollbackGuard) (st' : State) (blocks : List (Block Body)) :
    ForkSwitchOutcome → Option (List (LedgerBlockEvent Body))
  | .completed => do
    let undone ← guard.kind.discardedTipFirst.mapM (notifyUndone env)
    let adopted ← blocks.mapM fun block ↦
      notifyAdopted env block ((st'.volatile.draining ++ st'.volatile.current).find?
        (·.point = block.point))
    some (undone ++ adopted)
  | .failed _ | .partiallyApplied _ _ | .invalidForkLength _ _ => some []

end State

/-- What an observer makes of an event: a stack of points, newest first. -/
def LedgerBlockEvent.mirror (stack : List Point) : LedgerBlockEvent Body → Option (List Point)
  | .adopted block => some (block.point :: stack)
  | .undone block => match stack with
    | [] => none
    | top :: rest => if top = block.point then some rest else none

end Events

namespace State

variable {Body : Type} {env : Environment Body} {st st' base : State} {applied : List Point}
  {appliedTip : Point}

/-! ### Runs -/

/-- The blocks that are applied, newest first, after rolling forward. -/
def appliedAfterBlock (applied : List Point) (block : Block Body) : BlockValidation → List Point
  | .valid => block.point :: applied
  | .invalid _ => applied

/-- The blocks that are applied after a switch. -/
def appliedAfterSwitch (applied : List Point) (rollbackLength : ℕ) (blocks : List (Block Body)) :
    ForkSwitchOutcome → List Point
  | .completed => (blocks.map point).reverse ++ applied.drop rollbackLength
  | .partiallyApplied appliedTip _ =>
    appliedTip :: ((blocks.map point).takeWhile (· ≠ appliedTip)).reverse ++ applied.drop rollbackLength
  | .failed _ | .invalidForkLength _ _ => applied

/-- The states of a run, with the blocks that are applied since the start, newest first, and what an observer
makes of the events. The switches meet a condition. -/
inductive ObservedRun (env : Environment Body) (Allowed : State → Point → List (Block Body) → Prop)
    (start : Point) : State → List Point → Option (List Point) → Prop
  | start {stable snapshots st} (htip : stable.tip = start) (h : new env stable snapshots = .ok st) :
    ObservedRun env Allowed start st [] (some [])
  | rollForward {st st' block verdict applied stack}
    (hrun : ObservedRun env Allowed start st applied (some stack)) (hblock : st.Extends block)
    (h : st.rollForward env block = .ok (st', verdict)) :
    ObservedRun env Allowed start st' (appliedAfterBlock applied block verdict)
      ((rollForwardEvents env st' block verdict).bind (·.foldlM LedgerBlockEvent.mirror stack))
  | switchToFork {st st' base fork blocks outcome guard applied stack}
    (hrun : ObservedRun env Allowed start st applied (some stack))
    (hblocks : List.IsChain Point.Before (fork :: blocks.map point))
    (hallowed : Allowed st fork blocks)
    (hroll : st.rollbackTo fork = .ok (guard, base))
    (h : st.switchToFork env fork blocks = .ok (st', outcome)) :
    ObservedRun env Allowed start st' (appliedAfterSwitch applied guard.kind.rollbackLength blocks outcome)
      ((switchToForkEvents env guard st' blocks outcome).bind (·.foldlM LedgerBlockEvent.mirror stack))

/-- The fork fits in the volatile window, and no block of it forces a boundary to the store. -/
def Fits (env : Environment Body) (st : State) (fork : Point) (blocks : List (Block Body)) : Prop :=
  blocks.length ≤ env.consensusSecurityParam ∧
    ∀ guard base, st.rollbackTo fork = .ok (guard, base) → Calm env base.volatile blocks

/-! ### What stays among the volatile blocks -/

variable {blocks : List (Block Body)} {guard : RollbackGuard} {start : Point} {block : Block Body}
  {tip : Point}

/-- **A calm fork pushes out as many blocks as the window cannot hold.** -/
theorem chain_of_calm_completed (hstate : st.WellFormed)
    (hblocks : Admits env Extends st blocks) (hcalm : Calm env st.volatile blocks)
    (hlength : st.volatile.length ≤ env.consensusSecurityParam)
    (h : st.replay env tip blocks = .ok (st', appliedTip, none)) :
    st'.chain = (st.chain ++ blocks.map point).drop
      (st.volatile.length + blocks.length - env.consensusSecurityParam) := by
  induction blocks generalizing st tip with
  | nil =>
    cases h
    rw [map_nil, append_nil, length_nil, Nat.add_zero, Nat.sub_eq_zero_of_le hlength, drop_zero]
  | cons block blocks ih =>
    rcases exists_of_replay_cons h with ⟨next, hnext, h⟩ | ⟨invalid, hcontra, -⟩
    swap
    · cases hcontra
    have hchain := chain_of_calm hstate hblocks.1 hcalm hnext
    have hlength' := length_of_valid hstate hblocks.1 hlength hnext
    rw [ih (hstate.rollForward hblocks.1 hnext).1 (hblocks.2 next hnext) (hcalm.tail hstate hblocks.1 hnext)
      hlength' h, hchain]
    have hcount := congrArg length hchain
    rw [length_chain, length_drop, length_append, length_chain, length_singleton] at hcount
    rw [← drop_append_of_le_length (by rw [length_append, length_chain]; split_ifs <;> omega),
      drop_drop, append_assoc, length_cons, map_cons, singleton_append]
    congr 1
    split_ifs at hcount ⊢ <;> omega

/-- The epochs of the volatile blocks are known. -/
def KnownEpochs (env : Environment Body) (st : State) : Prop :=
  ∀ fragment ∈ st.volatile.series, ∃ epoch, env.epochOf fragment.point.slotOrDefault = .ok epoch

theorem KnownEpochs.rollForward {verdict} (hknown : KnownEpochs env st) (hstate : st.WellFormed)
    (hblock : st.Extends block) (h : st.rollForward env block = .ok (st', verdict)) :
    KnownEpochs env st' := by
  obtain ⟨prepared, hprepared, ⟨_, -, rfl, -⟩ | ⟨fragment, -, -, hadopt⟩⟩ := exists_of_rollForward h
  · rw [KnownEpochs, series_of_prepare hprepared]
    exact hknown
  have hadopted := adopted_of_adopt hadopt
    ((hblock.prepare hprepared).follows (hstate.prepare hprepared).chained fragment)
  obtain ⟨written, hwritten, -⟩ := hadopted.exists_written
  rw [series_of_prepare hprepared] at hwritten
  obtain ⟨-, -, epoch, hepoch, -⟩ := exists_of_prepare hprepared
  intro other hother
  have hmem : other ∈ st.volatile.series ++ [block.anchor fragment] :=
    hwritten ▸ mem_append_right _ hother
  rcases mem_append.1 hmem with hold | hnew
  · exact hknown other hold
  · cases mem_singleton.1 hnew
    exact ⟨epoch, hepoch⟩

/-! ### Events and the stack -/

theorem exists_notifyUndone (env : Environment Body) {discarded : List AnchoredVolatileFragment}
    (rest : List Point)
    (hknown : ∀ fragment ∈ discarded, ∃ epoch, env.epochOf fragment.point.slotOrDefault = .ok epoch) :
    ∃ events, discarded.mapM (notifyUndone env) = some events ∧
      events.foldlM LedgerBlockEvent.mirror (discarded.map (·.point) ++ rest) = some rest := by
  induction discarded with
  | nil => exact ⟨[], rfl, rfl⟩
  | cons fragment discarded ih =>
    obtain ⟨epoch, hepoch⟩ := hknown fragment mem_cons_self
    obtain ⟨events, hevents, hstack⟩ := ih fun other hother ↦ hknown other (mem_cons_of_mem _ hother)
    refine ⟨.undone (.fromAnchored fragment epoch) :: events, ?_, ?_⟩
    · rw [mapM_cons, notifyUndone, hepoch, hevents]
      rfl
    · rw [foldlM_cons, map_cons, cons_append, LedgerBlockEvent.mirror,
        if_pos (by rfl : fragment.point = (UndoneBlock.fromAnchored fragment epoch).point)]
      exact hstack

theorem exists_notifyAdopted (env : Environment Body) {series : VolatileSeries} (stack : List Point)
    (hknown : ∀ fragment ∈ series, ∃ epoch, env.epochOf fragment.point.slotOrDefault = .ok epoch)
    (hblocks : ∀ block ∈ blocks, block.point ∈ series.map (·.point)) :
    ∃ events, blocks.mapM (fun block ↦ notifyAdopted env block (series.find? (·.point = block.point))) =
        some events ∧
      events.foldlM LedgerBlockEvent.mirror stack = some ((blocks.map point).reverse ++ stack) := by
  induction blocks generalizing stack with
  | nil => exact ⟨[], rfl, rfl⟩
  | cons block blocks ih =>
    obtain ⟨fragment, hfragment, hpoint⟩ := mem_map.1 (hblocks block mem_cons_self)
    obtain ⟨epoch, hepoch⟩ := hknown fragment hfragment
    obtain ⟨found, hfound⟩ : ∃ found, series.find? (·.point = block.point) = some found :=
      isSome_iff_exists.1 (find?_isSome.2 ⟨fragment, hfragment, decide_eq_true hpoint⟩)
    obtain ⟨events, hevents, hstack⟩ := ih (block.point :: stack)
      fun other hother ↦ hblocks other (mem_cons_of_mem _ hother)
    rw [hpoint] at hepoch
    have hepoch' : env.epochOf block.slot = .ok epoch := hepoch
    refine ⟨.adopted (.fromBlock epoch block found.fragment) :: events, ?_, ?_⟩
    · rw [mapM_cons, hfound, notifyAdopted, hepoch', hevents]
      rfl
    · rw [map_cons, reverse_cons, append_assoc]
      exact hstack

/-! ### Every run -/

/-- What holds of every run: the stack of the observer has the blocks that are applied, and the chain of the
ledger is on top of it. -/
structure Mirrored (env : Environment Body) (start : Point) (st : State) (applied : List Point)
    : Prop where
  wellFormed : st.WellFormed
  length_le : st.volatile.length ≤ env.consensusSecurityParam
  knownEpochs : KnownEpochs env st
  chain_onTop : st.chain.reverse <+: applied ++ [start]

theorem mirrored_new {stable snapshots} (h : new env stable snapshots = .ok st) :
    Mirrored env stable.tip st [] := by
  obtain ⟨-, epoch, hvolatile⟩ := exists_of_new h
  refine ⟨wellFormed_new h, ?_, ?_, ?_⟩
  · rw [hvolatile]
    exact Nat.zero_le _
  · rw [KnownEpochs, hvolatile]
    intro fragment hfragment
    cases hfragment
  · rw [chain_of_new h]
    exact prefix_rfl

/-- **Rolling forward** pushes its block. -/
theorem Mirrored.rollForward (h : Mirrored env start st applied) (hblock : st.Extends block)
    (hvalid : st.rollForward env block = .ok (st', .valid)) :
    Mirrored env start st' (block.point :: applied) ∧
      (rollForwardEvents env st' block .valid).bind (·.foldlM LedgerBlockEvent.mirror applied) =
        some (block.point :: applied) := by
  refine ⟨⟨(h.wellFormed.rollForward hblock hvalid).1, length_of_valid h.wellFormed hblock h.length_le hvalid,
    h.knownEpochs.rollForward h.wellFormed hblock hvalid, ?_⟩, ?_⟩
  · obtain ⟨n, -, hchain⟩ := chain_of_valid h.wellFormed hblock hvalid
    have hsuffix : st'.chain.reverse <+: block.point :: st.chain.reverse := by
      rw [← reverse_concat, reverse_prefix, hchain]
      exact drop_suffix _ _
    exact hsuffix.trans ((prefix_cons_inj _).2 h.chain_onTop)
  · obtain ⟨prepared, fragment, hprepared, -, -, hadopted⟩ := hblock.exists_of_valid h.wellFormed hvalid
    obtain ⟨-, -, epoch, hepoch, -⟩ := exists_of_prepare hprepared
    obtain ⟨kept, -, hcurrent⟩ := hadopted.exists_current
    rw [rollForwardEvents, VolatileDB.viewBack, hcurrent, getLast?_concat, notifyAdopted, hepoch]
    rfl

/-- The newest blocks are those that a rollback discards. -/
theorem Mirrored.exists_of_rollbackTo {point : Point}
    (h : Mirrored env start st applied) (hroll : st.rollbackTo point = .ok (guard, base)) :
    ∃ rest, applied = guard.kind.discardedTipFirst.map (·.point) ++ rest ∧
      applied.drop guard.kind.rollbackLength = rest ∧ base.chain.reverse <+: rest ++ [start] := by
  obtain ⟨-, hlength⟩ := series_of_rollbackTo hroll
  have hprefix := h.chain_onTop
  rw [chain_of_rollbackTo hroll, reverse_append, map_reverse, reverse_reverse] at hprefix
  obtain ⟨older, holder⟩ := hprefix
  have hfront : guard.kind.discardedTipFirst.map (·.point) <+: applied := by
    have hfront : guard.kind.discardedTipFirst.map (·.point) <+: applied ++ [start] :=
      ⟨base.chain.reverse ++ older, by rw [← append_assoc]; exact holder⟩
    refine prefix_of_prefix_length_le hfront (prefix_append _ _) ?_
    have hcount := congrArg length holder
    simp only [length_append, length_reverse, length_chain, length_singleton] at hcount
    omega
  obtain ⟨rest, rfl⟩ := hfront
  refine ⟨rest, rfl, ?_, older, ?_⟩
  · rw [← hlength, drop_left' (length_map _)]
  · rw [append_assoc, append_assoc] at holder
    exact append_cancel_left holder

/-- **A switch that fits** pops what it discards and pushes its fork, or changes nothing. -/
theorem Mirrored.switchToFork {fork : Point} {outcome : ForkSwitchOutcome}
    (h : Mirrored env start st applied)
    (hblocks : List.IsChain Point.Before (fork :: blocks.map point))
    (hfits : Fits env st fork blocks)
    (hroll : st.rollbackTo fork = .ok (guard, base))
    (hswitch : st.switchToFork env fork blocks = .ok (st', outcome)) :
    Mirrored env start st' (appliedAfterSwitch applied guard.kind.rollbackLength blocks outcome) ∧
      (switchToForkEvents env guard st' blocks outcome).bind (·.foldlM LedgerBlockEvent.mirror applied) =
        some (appliedAfterSwitch applied guard.kind.rollbackLength blocks outcome) := by
  have hadmits : ∀ guard base, st.rollbackTo fork = .ok (guard, base) →
      Admits env Extends base blocks := fun _ _ ↦ admits_of_rollbackTo h.wellFormed hblocks
  have hwellFormed := h.wellFormed.switchToFork hadmits hswitch
  have hlength := length_of_switchToFork h.wellFormed h.length_le hblocks hswitch
  have hunchanged : outcome.ReportsFailure → Mirrored env start st' applied := by
    intro hfailure
    obtain ⟨hvolatile, -, -⟩ := h.wellFormed.failedSwitch hadmits hswitch hfailure
    refine ⟨hwellFormed, hlength, ?_, ?_⟩
    · rw [KnownEpochs, hvolatile]
      exact h.knownEpochs
    · rw [chain_of_failed h.wellFormed hblocks hswitch hfailure]
      exact h.chain_onTop
  cases outcome with
  | failed | invalidForkLength => exact ⟨hunchanged trivial, rfl⟩
  | partiallyApplied appliedTip failure =>
    exact absurd rfl (not_partiallyApplied_of_calm h.wellFormed h.length_le hblocks
      (fun guard base hguard ↦ (hfits.2 guard base hguard).of_front (List.dropLast_prefix _)) hswitch
      appliedTip failure)
  | completed =>
    obtain ⟨guard, base', hrollback', ⟨hcontra, -⟩ | ⟨-, -, replayed, _, failure, hreplay, hend⟩⟩ :=
      switch_cases hswitch
    · cases hcontra
    obtain ⟨rfl, rfl⟩ := Prod.mk.inj (Except.ok.inj (hroll.symm.trans hrollback'))
    obtain ⟨rfl, -, rfl⟩ | ⟨_, -, ⟨-, hcontra, -⟩ | ⟨-, hcontra, -⟩⟩ := hend
    rotate_left
    · cases hcontra
    · cases hcontra
    have hbase := h.wellFormed.rollbackTo hroll
    have hcount := length_of_rollbackTo hroll
    obtain ⟨hseries, -⟩ := series_of_rollbackTo hroll
    have hchain := chain_of_calm_completed hbase (hadmits _ _ hroll) (hfits.2 _ _ hroll)
      (by have := h.length_le; omega) hreplay
    -- what is pushed out was there before the fork
    rw [drop_append_of_le_length (by have := hfits.1; rw [length_chain]; omega)] at hchain
    have hknownBase : KnownEpochs env base := fun fragment hfragment ↦
      h.knownEpochs fragment (hseries ▸ mem_append_left _ hfragment)
    have hknown := (replay_invariant (P := fun s ↦ s.WellFormed ∧ KnownEpochs env s) hreplay
      (hadmits _ _ hroll) ⟨hbase, hknownBase⟩ fun _ _ _ _ hs hblock h ↦
        ⟨(hs.1.rollForward hblock h).1, hs.2.rollForward hs.1 hblock h⟩).2
    obtain ⟨rest, happlied, hdrop, hrest⟩ := h.exists_of_rollbackTo hroll
    refine ⟨⟨hwellFormed, hlength, hknown, ?_⟩, ?_⟩
    · rw [appliedAfterSwitch, hdrop, hchain, reverse_append, append_assoc]
      refine (prefix_append_right_inj _).2 (List.IsPrefix.trans ?_ hrest)
      exact reverse_prefix.2 (drop_suffix _ _)
    · have hpoints : ∀ block ∈ blocks, block.point ∈ st'.volatile.series.map (·.point) := by
        intro block hblock
        obtain ⟨first, older, holder⟩ : ∃ first older, base.chain.drop
            (base.volatile.length + blocks.length - env.consensusSecurityParam) = first :: older := by
          refine exists_cons_of_length_pos ?_
          rw [length_drop, length_chain]
          have := hfits.1
          omega
        rw [holder, chain, cons_append] at hchain
        rw [(cons.inj hchain).2]
        exact mem_append_right _ (mem_map_of_mem hblock)
      obtain ⟨undone, hundone, hpopped⟩ := exists_notifyUndone env rest (fun fragment hfragment ↦
        h.knownEpochs fragment (hseries ▸ mem_append_right _ (mem_reverse.2 hfragment)))
      obtain ⟨adopted, hadopted, hpushed⟩ := exists_notifyAdopted env rest hknown hpoints
      have hevents : switchToForkEvents env guard st' blocks .completed = some (undone ++ adopted) := by
        rw [VolatileDB.series] at hadopted
        simp only [switchToForkEvents, hundone, hadopted, bind_eq_bind, bind_some]
      rw [hevents, appliedAfterSwitch, hdrop, bind_some, foldlM_append, happlied, hpopped]
      exact hpushed

/-- **An observer has the chain of the ledger, in every run whose switches fit**: what it makes of
the events is
the blocks that are applied, with the chain of the ledger on top, and no event is missing. -/
theorem observers_mirror_chain {start : Point} {mirrored : Option (List Point)}
    (hrun : ObservedRun env (Fits env) start st applied mirrored) :
    mirrored = some applied ∧ st.chain.reverse <+: applied ++ [start] := by
  suffices h : mirrored = some applied ∧ Mirrored env start st applied from ⟨h.1, h.2.chain_onTop⟩
  induction hrun with
  | start htip h =>
    subst htip
    exact ⟨rfl, mirrored_new h⟩
  | @rollForward st st' block verdict applied stack hrun hblock h ih =>
    obtain ⟨hstack, hmirrored⟩ := ih
    cases hstack
    cases verdict with
    | valid =>
      obtain ⟨hmirrored', hevents⟩ := hmirrored.rollForward hblock h
      exact ⟨hevents, hmirrored'⟩
    | invalid failure =>
      refine ⟨rfl, (hmirrored.wellFormed.rollForward hblock h).1, ?_,
        hmirrored.knownEpochs.rollForward hmirrored.wellFormed hblock h, ?_⟩
      · have hlength := congrArg length (chain_of_invalid h)
        rw [length_chain, length_chain] at hlength
        have := hmirrored.length_le
        omega
      · rw [chain_of_invalid h]
        exact hmirrored.chain_onTop
  | switchToFork hrun hblocks hallowed hroll h ih =>
    obtain ⟨hstack, hmirrored⟩ := ih
    cases hstack
    obtain ⟨hmirrored', hevents⟩ := hmirrored.switchToFork hblocks hallowed hroll h
    exact ⟨hevents, hmirrored'⟩

/-! ### Small ledgers -/

theorem ObservedRun.push {Allowed stack} (block : Block Body)
    (hrun : ObservedRun env Allowed start st applied (some stack)) (hblock : st.Extends block)
    (h : st.rollForward env block = .ok (st', .valid))
    (hevents : (rollForwardEvents env st' block .valid).bind (·.foldlM LedgerBlockEvent.mirror stack) =
      some (block.point :: stack)) :
    ObservedRun env Allowed start st' (block.point :: applied) (some (block.point :: stack)) :=
  hevents ▸ hrun.rollForward hblock h

/-- An observer of two blocks, and of a switch to a fork of two others. -/
theorem observers_mirror_chain_fork : ∃ st applied mirrored,
    ObservedRun tenSlots (Fits tenSlots) (.specific 32 32 32) st applied mirrored ∧
    applied = [(blockAt 36 true).point, (blockAt 35 true).point] ∧ mirrored = some applied := by
  have hstart : ObservedRun tenSlots (Fits tenSlots) (.specific 32 32 32) _ _ _ :=
    .start rfl (rfl : new tenSlots thirdEpoch thirdEpochSnapshots = .ok _)
  have hrun := (hstart.push (blockAt 33 true) (by decide : 32 < 33) rfl rfl).push (blockAt 34 true)
    (by decide : 33 < 34) rfl rfl
  have hfork : List.IsChain Point.Before
      (.specific 32 32 32 :: [blockAt 35 true, blockAt 36 true].map point) :=
    .cons_cons (by decide : 32 < 35) (.cons_cons (by decide : 35 < 36) (.singleton _))
  have hepochs : ∀ block ∈ [blockAt 35 true, blockAt 36 true], ∀ epoch,
      tenSlots.epochOf block.slot = .ok epoch → epoch ≤ 3 := by
    intro block hblock epoch hknown
    rw [mem_pair] at hblock
    rcases hblock with rfl | rfl <;> cases hknown <;> exact le_rfl
  have hrun' := hrun.switchToFork hfork ⟨le_rfl, fun _ _ hroll _ _ hfront _ ↦ by
    cases hroll
    exact ⟨rfl, fun crossing hcrossing ↦ hepochs crossing (hfront.subset hcrossing)⟩⟩ rfl rfl
  exact ⟨_, _, _, hrun', rfl, (observers_mirror_chain hrun').1⟩

/-- Epochs of ten slots, of which the first three are within the stability window. -/
def slowGrowth : Environment Bool := { tenSlots with consensusSecurityParam := 4, stabilityWindow := 3 }

/-- **An observer loses track of the ledger.** The window holds two blocks, and a fork of three completes: the
first of them has left the window, and nothing can be told. Or a fork is applied in part, after a boundary is
forced to the store: the tip has changed, and nothing is told. -/
theorem observers_lose_track :
    (∃ st applied, ObservedRun tenSlots (fun _ _ _ ↦ True) (.specific 32 32 32) st applied none ∧
      st.tip = (blockAt 37 true).point) ∧
    ∃ st applied stack, ObservedRun slowGrowth (fun _ _ _ ↦ True) (.specific 32 32 32) st applied
      (some stack) ∧
      stack = [(blockAt 35 true).point, (blockAt 34 true).point, (blockAt 33 true).point] ∧
      st.tip = (blockAt 44 true).point := by
  constructor
  · have hfork : List.IsChain Point.Before
        (.specific 32 32 32 :: [blockAt 35 true, blockAt 36 true, blockAt 37 true].map point) :=
      .cons_cons (by decide : 32 < 35) (.cons_cons (by decide : 35 < 36)
        (.cons_cons (by decide : 36 < 37) (.singleton _)))
    have hstart : ObservedRun tenSlots (fun _ _ _ ↦ True) (.specific 32 32 32) _ _ _ :=
      .start rfl (rfl : new tenSlots thirdEpoch thirdEpochSnapshots = .ok _)
    have hrun := (hstart.push (blockAt 33 true) (by decide : 32 < 33) rfl rfl).push (blockAt 34 true)
      (by decide : 33 < 34) rfl rfl
    exact ⟨_, _, hrun.switchToFork hfork trivial rfl rfl, rfl⟩
  · have hfork : List.IsChain Point.Before (.specific 32 32 32 ::
        [blockAt 36 true, blockAt 41 true, blockAt 44 true, blockAt 45 false].map point) :=
      .cons_cons (by decide : 32 < 36) (.cons_cons (by decide : 36 < 41) (.cons_cons (by decide : 41 < 44)
        (.cons_cons (by decide : 44 < 45) (.singleton _))))
    have hstart : ObservedRun slowGrowth (fun _ _ _ ↦ True) (.specific 32 32 32) _ _ _ :=
      .start rfl (rfl : new slowGrowth thirdEpoch thirdEpochSnapshots = .ok _)
    have hrun := ((hstart.push (blockAt 33 true) (by decide : 32 < 33) rfl rfl).push (blockAt 34 true)
      (by decide : 33 < 34) rfl rfl).push (blockAt 35 true) (by decide : 34 < 35) rfl rfl
    exact ⟨_, _, _, hrun.switchToFork hfork trivial rfl rfl, rfl, rfl⟩

end State

end Amaru
