import Amaru.Consensus.AdoptChain

/-!
# From validated blocks to the best chain

The two stages that move the tip, with the ledger and the chain store. The first moves the ledger and
tells the second, which handles its messages in order, at any later time; in between, other stages store
headers, bodies and verdicts.

`Reachable` are the states of a run from a start, in which each block that is handed to the first stage
meets a condition. In each of them **the ledger holds a path of the header tree that ends at the current
tip** (`Live`), unless the ledger is empty, in which case nothing ever moves (`Idle`).
-/

namespace Amaru

open State Option Except ValidateBlock List ChainStore Point Block

/-- The two stages, with the ledger and the chain store. -/
structure Pipeline (Body : Type) where
  store : ChainStore Body
  ledger : State
  validateBlock : ValidateBlock
  adoptChain : AdoptChain
  /-- The messages the second stage has not handled yet, oldest first. -/
  toAdopt : List AdoptChainMsg
  announced : List Announcement

/-- Which of the other stages there are. -/
structure StageConfig where
  hasBlockSource : Bool
  hasMempool : Bool
  hasForge : Bool

/-- What a signal asks of the stage that adopts chains. -/
def ValidateBlockSignal.toAdopt : ValidateBlockSignal → Option AdoptChainMsg
  | adoptChain tip maxBlockHeight => some ⟨tip, maxBlockHeight⟩
  | blockValidationResult _ _ _ | validation _ _ => none

namespace Pipeline

variable {Body : Type} (env : Environment Body)

/-- Open the ledger, realign the chain store with it and set the stages up. -/
def start (config : StageConfig) (stable : Store) (snapshots : SortedMap ℕ Store)
    (chainStore : ChainStore Body) : Except NodeStartError (Pipeline Body) := do
  let ledger ← (new env stable snapshots).mapError .ledger
  let store ← chainStore.realignChainStoreTo ledger.tip .all
  match store.loadPoint ledger.tip.hash with
  | none => .error .ledgerTipNotFound
  | some ledgerTip => .ok {
      store, ledger
      validateBlock := .new config.hasBlockSource env.consensusSecurityParam ledgerTip
      adoptChain := .new config.hasBlockSource config.hasMempool config.hasForge
        env.consensusSecurityParam ledgerTip
      toAdopt := []
      announced := [] }

/-- The first stage handles a block. -/
def validate (pipe : Pipeline Body) (msg : ValidateBlockMsg) :
    Except Termination (Pipeline Body × List ValidateBlockSignal) := do
  let (ledger, st, signals) ← handle env pipe.store pipe.ledger pipe.validateBlock msg
  .ok ({ pipe with
    ledger
    validateBlock := st
    toAdopt := pipe.toAdopt ++ signals.filterMap ValidateBlockSignal.toAdopt }, signals)

/-- The second stage handles its next message. -/
def adopt (pipe : Pipeline Body) : Except Termination (Pipeline Body) :=
  match pipe.toAdopt with
  | [] => .ok pipe
  | msg :: toAdopt => do
    let (store, stage, announcements) ← AdoptChain.handle pipe.store pipe.adoptChain msg
    .ok { pipe with
      store
      adoptChain := stage
      toAdopt
      announced := pipe.announced ++ announcements }

end Pipeline

/-- What other stages do to the store: headers and bodies are added, and verdicts change. -/
structure ChainStore.Grows {Body : Type} (s s' : ChainStore Body) : Prop where
  loadHeader : ∀ {hash h}, s.loadHeader hash = some h → s'.loadHeader hash = some h
  loadBlock : ∀ {hash block}, s.loadBlock hash = some block → s'.loadBlock hash = some block
  anchor_eq : s'.anchor = s.anchor
  bestChain_eq : s'.bestChain = s.bestChain
  bestChainTip_eq : s'.bestChainTip = s.bestChainTip

namespace Pipeline

variable {Body : Type} {tree : HeaderTree} {env : Environment Body} {pipe pipe' : Pipeline Body}
  {msg : ValidateBlockMsg} {signals : List ValidateBlockSignal} {stable : Store}
  {config : StageConfig} {fork : Point} {snapshots : SortedMap ℕ Store} {s : ChainStore Body}

/-- A block that may be handed to the first stage: its header is stored, and the parent is its
parent. -/
def Handed (tree : HeaderTree) (pipe : Pipeline Body) (msg : ValidateBlockMsg) : Prop :=
  pipe.store.HasHeader msg.tip ∧ (msg.parent = .origin ∨ tree.Child msg.parent msg.tip)

/-- Handling the block asks the ledger to switch to a fork. -/
structure AsksSwitch (pipe : Pipeline Body) (msg : ValidateBlockMsg) (fork : Point)
    (blocks : List (Block Body)) : Prop where
  isRefused_eq : pipe.validateBlock.isRefused msg = false
  parent_ne : msg.parent ≠ pipe.validateBlock.current
  isBetter_eq : pipe.validateBlock.isBetter pipe.store msg = true
  forkTo_eq : forkTo pipe.store pipe.ledger.tip msg.tip = .ok (fork, blocks)

/-- What a node may be started from: headers of the tree, a ledger at one of them or empty, and no point
on a best chain that is empty. -/
structure Disk (tree : HeaderTree) (stable : Store) (chainStore : ChainStore Body) : Prop where
  within : chainStore.Within tree
  tip : stable.tip = .origin ∨ tree.Has stable.tip
  hash_eq : chainStore.bestChainTip.hash = originHash →
    ∀ {slot p}, chainStore.bestChain.get? slot = some p → p.hash = originHash

/-- The states of a run in which each block that is handed to the first stage meets a condition. -/
inductive Reachable (tree : HeaderTree) (env : Environment Body)
    (condition : Pipeline Body → ValidateBlockMsg → Prop) : Pipeline Body → Prop
  | start {config stable snapshots chainStore pipe} (hdisk : Disk tree stable chainStore)
    (h : Pipeline.start env config stable snapshots chainStore = .ok pipe) :
    Reachable tree env condition pipe
  | validate {pipe pipe' : Pipeline Body} {msg signals}
    (hpipeline : Reachable tree env condition pipe) (hmsg : pipe.Handed tree msg)
    (hcondition : condition pipe msg) (h : pipe.validate env msg = .ok (pipe', signals)) :
    Reachable tree env condition pipe'
  | adopt {pipe pipe' : Pipeline Body} (hpipeline : Reachable tree env condition pipe)
      (h : pipe.adopt = .ok pipe') : Reachable tree env condition pipe'
  | grow {pipe : Pipeline Body} {s} (hpipeline : Reachable tree env condition pipe)
    (hgrows : pipe.store.Grows s) (hstore : s.Within tree) :
    Reachable tree env condition { pipe with store := s }

/-! ### The ledger -/

/-- The ledger holds a path of the tree that ends at the current tip. -/
structure Live (tree : HeaderTree) (env : Environment Body) (pipe : Pipeline Body) : Prop where
  within : pipe.store.Within tree
  wellFormed : pipe.ledger.WellFormed
  length_le : pipe.ledger.volatile.length ≤ env.consensusSecurityParam
  isChain : List.IsChain tree.Child pipe.ledger.chain
  tip_eq : pipe.ledger.tip = pipe.validateBlock.current
  hasHeader : pipe.store.HasHeader pipe.validateBlock.current

theorem Handed.point_eq (hmsg : pipe.Handed tree msg) (hstore : pipe.store.Within tree) {block}
    (hblock : pipe.store.loadBlock msg.tip.hash = some block) :
    block.point = msg.tip := by
  obtain ⟨header, hheader, hpoint⟩ := hstore.exists_header hblock
  obtain ⟨header', hheader', hpoint'⟩ := hmsg.1
  rw [hheader] at hheader'
  rw [hpoint, some.inj hheader', hpoint']

/-- What handling a block does to the ledger and to the current tip. -/
inductive Moved (tree : HeaderTree) (env : Environment Body) (pipe : Pipeline Body)
    (msg : ValidateBlockMsg) (ledger : State) (current : Point) (adoptions : List AdoptChainMsg) :
    Prop
  /-- The block is not taken. -/
  | stayed (hchain : ledger.chain = pipe.ledger.chain)
    (hcurrent : current = pipe.validateBlock.current) (hadoptions : adoptions = [])
  /-- The block extends the chain. -/
  | extended {n height} (hchild : tree.Child pipe.validateBlock.current msg.tip)
    (hchain : ledger.chain = (pipe.ledger.chain ++ [msg.tip]).drop n)
    (hcurrent : current = msg.tip) (hadoptions : adoptions = [⟨msg.tip, height⟩])
  /-- A fork replaces the end of the chain, up to the block. -/
  | switched {n height fork blocks guard base}
    (hasks : pipe.AsksSwitch msg fork blocks)
    (hfork : ValidateBlock.ForkPath tree pipe.store pipe.ledger.tip msg.tip fork blocks)
    (hroll : pipe.ledger.rollbackTo fork = .ok (guard, base))
    (hswitch : pipe.ledger.switchToFork env fork blocks = .ok (ledger, .completed))
    (hchain : ledger.chain = (base.chain ++ blocks.map point).drop n)
    (hcurrent : current = msg.tip) (hadoptions : adoptions = [⟨msg.tip, height⟩])
  /-- A front of a fork replaces the end of the chain. -/
  | switchedPartly {n height fork appliedTip failure blocks applied guard base}
    (hasks : pipe.AsksSwitch msg fork blocks)
    (hfork : ValidateBlock.ForkPath tree pipe.store pipe.ledger.tip msg.tip fork blocks)
    (hroll : pipe.ledger.rollbackTo fork = .ok (guard, base))
    (hswitch : pipe.ledger.switchToFork env fork blocks =
      .ok (ledger, .partiallyApplied appliedTip failure))
    (happlied : applied <+: blocks) (hne : applied ≠ [])
    (hchain : ledger.chain = (base.chain ++ applied.map point).drop n)
    (hcurrent : current = appliedTip) (htip : ledger.tip = appliedTip)
    (hadoptions : adoptions = [⟨appliedTip, height⟩])

theorem Live.has_current (hlive : pipe.Live tree env) : tree.Has pipe.validateBlock.current :=
  hlive.hasHeader.has hlive.within

theorem filterMap_completed (st : ValidateBlock) (tip : Point) :
    (st.completed tip).2.filterMap ValidateBlockSignal.toAdopt = [⟨tip, st.maxBlockHeight⟩] := by
  rw [completed]
  split_ifs <;> rfl

theorem filterMap_error (st : ValidateBlock) (msg : ValidateBlockMsg) (failedTip : Point) :
    (st.error msg failedTip).2.filterMap ValidateBlockSignal.toAdopt = [] := by
  rw [ValidateBlock.error]
  split_ifs <;> rfl

/-- A block that extends the current tip comes after the tip of the ledger. -/
theorem Live.extends_of_child (hlive : pipe.Live tree env) (block : Block Body)
    (hchild : tree.Child pipe.validateBlock.current block.point) :
    pipe.ledger.Extends block := by
  rw [State.Extends, hlive.tip_eq]
  exact hchild.before

theorem Live.forkPath (hlive : pipe.Live tree env) (hmsg : pipe.Handed tree msg) {blocks}
    (hasks : pipe.AsksSwitch msg fork blocks) :
    ValidateBlock.ForkPath tree pipe.store pipe.ledger.tip msg.tip fork blocks :=
  forkPath_of_forkTo hlive.within (by rw [hlive.tip_eq]; exact hlive.has_current)
    (hmsg.1.has hlive.within) hasks.forkTo_eq

/-- **What handling a block does.** -/
theorem Live.moved (hlive : pipe.Live tree env) (hmsg : pipe.Handed tree msg) {ledger st}
    (h : handle env pipe.store pipe.ledger pipe.validateBlock msg = .ok (ledger, st, signals))
    :
    Moved tree env pipe msg ledger st.current (signals.filterMap ValidateBlockSignal.toAdopt) ∧
      ledger.WellFormed ∧ ledger.volatile.length ≤ env.consensusSecurityParam := by
  obtain ⟨horigin, hhandled⟩ := handled_of_handle h
  have hchild := hmsg.2.resolve_left horigin
  cases hhandled with
  | refused =>
    exact ⟨.stayed rfl rfl (filterMap_error _ msg _), hlive.wellFormed, hlive.length_le⟩
  | @extended block _ _ hparent hblock hforward =>
    have hpoint := hmsg.point_eq hlive.within hblock
    have hextends := hlive.extends_of_child block (by rw [hpoint]; exact hparent ▸ hchild)
    obtain ⟨n, -, hchain⟩ := chain_of_valid hlive.wellFormed hextends hforward
    rw [hpoint] at hchain
    exact ⟨.extended (hparent ▸ hchild) hchain rfl (filterMap_completed _ _),
      (hlive.wellFormed.rollForward hextends hforward).1,
      length_of_valid hlive.wellFormed hextends hlive.length_le hforward⟩
  | @rejected block _ failure _ hparent hblock hforward =>
    have hpoint := hmsg.point_eq hlive.within hblock
    have hextends := hlive.extends_of_child block (by rw [hpoint]; exact hparent ▸ hchild)
    have hchain := chain_of_invalid hforward
    refine ⟨.stayed hchain rfl (filterMap_error _ msg _),
      (hlive.wellFormed.rollForward hextends hforward).1, ?_⟩
    exact length_of_chain_eq hchain ▸ hlive.length_le
  | skipped => exact ⟨.stayed rfl rfl rfl, hlive.wellFormed, hlive.length_le⟩
  | @switched fork blocks _ outcome _ _ hrefused hparent hbetter hforkTo hswitch hafter =>
    have hasks : pipe.AsksSwitch msg fork blocks := ⟨hrefused, hparent, hbetter, hforkTo⟩
    have hfork := hlive.forkPath hmsg hasks
    refine ⟨?_, hlive.wellFormed.switchToFork
      (fun _ _ ↦ admits_of_rollbackTo hlive.wellFormed hfork.follows) hswitch,
      length_of_switchToFork hlive.wellFormed hlive.length_le hfork.follows hswitch⟩
    cases outcome with
    | completed =>
      obtain ⟨guard, base, n, hroll, hchain⟩ :=
        chain_of_completed hlive.wellFormed hfork.follows hswitch
      cases hafter
      exact .switched hasks hfork hroll hswitch hchain rfl (filterMap_completed _ _)
    | failed failure =>
      cases hafter
      exact .stayed (chain_of_failed hlive.wellFormed hfork.follows hswitch trivial) rfl
        (filterMap_error _ msg _)
    | partiallyApplied appliedTip failure =>
      obtain ⟨guard, base, applied, n, hroll, happlied, hne, htip, hchain⟩ :=
        chain_of_partiallyApplied hlive.wellFormed hfork.follows hswitch
      cases hafter
      exact .switchedPartly hasks hfork hroll hswitch happlied hne hchain rfl htip
        ((filterMap_append ..).trans (congrArg₂ (· ++ ·) (filterMap_completed _ _) (filterMap_error _ msg _)))
    | invalidForkLength rollbackLength forkLength => cases hafter

theorem isChain_append {points path last} (hpoints : List.IsChain tree.Child points)
    (hlast : points.getLast? = some last) (hpath : List.IsChain tree.Child (last :: path)) :
    List.IsChain tree.Child (points ++ path) := by
  refine List.isChain_append.2 ⟨hpoints, hpath.tail, fun p hp q hq ↦ ?_⟩
  obtain rfl : last = p := some.inj (hlast.symm.trans hp)
  rcases path with - | ⟨first, path⟩
  · cases hq
  · obtain rfl := some.inj hq
    exact hpath.rel

/-- What is left of the chain by a rollback, and what comes on top, is a path. -/
theorem Live.isChain_fork (hlive : pipe.Live tree env) {path guard base}
    (hroll : pipe.ledger.rollbackTo fork = .ok (guard, base))
    (hpath : List.IsChain tree.Child (fork :: path)) :
    List.IsChain tree.Child (base.chain ++ path) := by
  have hbase : List.IsChain tree.Child base.chain :=
    List.IsChain.prefix hlive.isChain (prefix_of_rollbackTo hroll)
  refine isChain_append hbase ?_ hpath
  rw [getLast?_chain, tip_of_rollbackTo hroll]

/-- **Handling a block keeps the ledger on a path that ends at the current tip.** -/
theorem Live.validate (hlive : pipe.Live tree env) (hmsg : pipe.Handed tree msg)
    (h : pipe.validate env msg = .ok (pipe', signals)) :
    pipe'.Live tree env := by
  obtain ⟨⟨ledger, st, signals'⟩, hhandle, h⟩ := bind_eq_ok_iff.1 h
  obtain ⟨rfl, rfl⟩ := Prod.mk.inj (ok.inj h)
  obtain ⟨hmoved, hwellFormed, hlength⟩ := hlive.moved hmsg hhandle
  suffices List.IsChain tree.Child ledger.chain ∧ ledger.tip = st.current ∧
      pipe.store.HasHeader st.current from
    ⟨hlive.within, hwellFormed, hlength, this.1, this.2.1, this.2.2⟩
  cases hmoved with
  | stayed hchain hcurrent =>
    have htip : ledger.tip = pipe.ledger.tip := by
      have hlast := getLast?_chain ledger
      rw [hchain, getLast?_chain] at hlast
      exact (some.inj hlast).symm
    rw [hchain, htip, hcurrent]
    exact ⟨hlive.isChain, hlive.tip_eq, hlive.hasHeader⟩
  | extended hchild hchain hcurrent =>
    have htip := tip_of_chain_eq_drop hchain
    rw [getLast?_concat] at htip
    rw [hchain, hcurrent]
    refine ⟨(isChain_append hlive.isChain (getLast?_chain _) ?_).drop _, (some.inj htip).symm, hmsg.1⟩
    rw [hlive.tip_eq]
    exact .cons_cons hchild (.singleton _)
  | switched _ hfork hroll _ hchain hcurrent =>
    have htip := tip_of_chain_eq_drop hchain
    rw [hchain, hcurrent]
    refine ⟨(hlive.isChain_fork hroll hfork.isChain).drop _, ?_, hmsg.1⟩
    rw [getLast?_append, hfork.getLast?_points] at htip
    exact (some.inj htip).symm
  | @switchedPartly _ _ _ appliedTip _ _ applied _ _ _ hfork hroll _ happlied hne hchain hcurrent htip =>
    have hlast := tip_of_chain_eq_drop hchain
    have hmem : appliedTip ∈ applied.map point := by
      rw [getLast?_append_of_ne_nil _ (mt map_eq_nil_iff.1 hne), htip] at hlast
      exact mem_of_getLast? hlast
    have hpath : List.IsChain tree.Child (_ :: applied.map point) :=
      List.IsChain.prefix hfork.isChain ((prefix_cons_inj _).2 (happlied.map _))
    rw [hchain, hcurrent, htip]
    exact ⟨(hlive.isChain_fork hroll hpath).drop _, rfl, hfork.hasHeader _ ((happlied.map _).subset hmem)⟩

theorem exists_of_adopt (h : pipe.adopt = .ok pipe') :
    pipe' = pipe ∧ pipe.toAdopt = [] ∨
      ∃ msg toAdopt s st announcements, pipe.toAdopt = msg :: toAdopt ∧
        AdoptChain.handle pipe.store pipe.adoptChain msg = .ok (s, st, announcements) ∧
        pipe' = { pipe with
          store := s
          adoptChain := st
          toAdopt
          announced := pipe.announced ++ announcements } := by
  rw [adopt] at h
  rcases htoAdopt : pipe.toAdopt with - | ⟨msg, toAdopt⟩ <;> rw [htoAdopt] at h
  · exact .inl ⟨(ok.inj h).symm, rfl⟩
  · obtain ⟨⟨s, st, announcements⟩, hhandle, h⟩ := bind_eq_ok_iff.1 h
    exact .inr ⟨msg, toAdopt, s, st, announcements, rfl, hhandle, (ok.inj h).symm⟩

theorem Live.adopt (hlive : pipe.Live tree env) (h : pipe.adopt = .ok pipe') :
    pipe'.Live tree env := by
  obtain ⟨rfl, -⟩ | ⟨msg, toAdopt, s, st, announcements, -, hhandle, rfl⟩ := exists_of_adopt h
  · exact hlive
  · obtain ⟨hheaders, hblocks⟩ := AdoptChain.headers_of_handle hhandle
    exact ⟨hlive.within.congr hheaders hblocks, hlive.wellFormed, hlive.length_le, hlive.isChain,
      hlive.tip_eq, hlive.hasHeader.congr hheaders⟩

theorem Live.grow (hlive : pipe.Live tree env)
    (hgrows : pipe.store.Grows s) (hstore : s.Within tree) :
    Live tree env { pipe with store := s } := by
  obtain ⟨header, hheader, hpoint⟩ := hlive.hasHeader
  exact ⟨hstore, hlive.wellFormed, hlive.length_le, hlive.isChain, hlive.tip_eq, header,
    hgrows.loadHeader hheader, hpoint⟩

/-! ### An empty ledger -/

/-- Nothing has moved from the origin. -/
structure Idle (tree : HeaderTree) (pipe : Pipeline Body) : Prop where
  within : pipe.store.Within tree
  chain_eq : pipe.ledger.chain = [.origin]
  current_eq : pipe.validateBlock.current = .origin
  currentBestTip_eq : pipe.adoptChain.currentBestTip = .origin
  bestChainTip_eq : pipe.store.bestChainTip = .origin
  hash_eq : ∀ {slot p}, pipe.store.bestChain.get? slot = some p → p.hash = originHash
  toAdopt_eq : pipe.toAdopt = []
  announced_eq : pipe.announced = []

section

variable (hidle : pipe.Idle tree)
include hidle

theorem Idle.tip_eq : pipe.ledger.tip = .origin := by
  have hlast := getLast?_chain pipe.ledger
  rw [hidle.chain_eq] at hlast
  exact (some.inj hlast).symm

theorem Idle.forkTo_ne_ok (tip : Point) (result : Point × List (Block Body)) :
    forkTo pipe.store pipe.ledger.tip tip ≠ .ok result := by
  rw [forkTo, hidle.tip_eq, findCommonAncestor, hidle.within.loadHeader_origin]
  cases pipe.store.loadHeader tip.hash with
  | none | some => simp

/-- **An empty ledger stays empty.** -/
theorem Idle.validate (h : pipe.validate env msg = .ok (pipe', signals)) : pipe'.Idle tree := by
  obtain ⟨⟨ledger, st, signals'⟩, hhandle, h⟩ := bind_eq_ok_iff.1 h
  obtain ⟨rfl, rfl⟩ := Prod.mk.inj (ok.inj h)
  obtain ⟨horigin, hhandled⟩ := handled_of_handle hhandle
  suffices ledger.chain = pipe.ledger.chain ∧ st.current = pipe.validateBlock.current ∧
      signals'.filterMap ValidateBlockSignal.toAdopt = [] from
    { hidle with
      chain_eq := this.1.trans hidle.chain_eq
      current_eq := this.2.1.trans hidle.current_eq
      toAdopt_eq := by
        rw [hidle.toAdopt_eq, this.2.2]
        rfl }
  cases hhandled with
  | refused => exact ⟨rfl, rfl, filterMap_error _ msg _⟩
  | extended _ hparent | rejected _ hparent => exact absurd (hparent.trans hidle.current_eq) horigin
  | skipped => exact ⟨rfl, rfl, rfl⟩
  | switched _ _ _ hfork => exact absurd hfork (hidle.forkTo_ne_ok _ _)

theorem Idle.adopt (h : pipe.adopt = .ok pipe') : pipe'.Idle tree := by
  obtain ⟨rfl, -⟩ | ⟨_, _, _, _, _, hcons, -⟩ := exists_of_adopt h
  · exact hidle
  · rw [hidle.toAdopt_eq] at hcons
    cases hcons

theorem Idle.grow (hgrows : pipe.store.Grows s) (hstore : s.Within tree)
    : Idle tree { pipe with store := s } :=
  { hidle with
    within := hstore
    bestChainTip_eq := hgrows.bestChainTip_eq.trans hidle.bestChainTip_eq
    hash_eq := by
      rw [hgrows.bestChain_eq]
      exact hidle.hash_eq }

end

/-! ### Starting -/

variable {chainStore : ChainStore Body} {condition : Pipeline Body → ValidateBlockMsg → Prop}

theorem exists_of_start (hdisk : Disk tree stable chainStore)
    (h : start env config stable snapshots chainStore = .ok pipe) :
    (∃ ledger, new env stable snapshots = .ok ledger ∧ pipe.ledger = ledger) ∧
      chainStore.realignChainStoreTo stable.tip .all = .ok pipe.store ∧
      pipe.validateBlock = .new config.hasBlockSource env.consensusSecurityParam stable.tip ∧
      pipe.adoptChain = .new config.hasBlockSource config.hasMempool config.hasForge
        env.consensusSecurityParam stable.tip ∧
      pipe.toAdopt = [] ∧ pipe.announced = [] ∧
      (stable.tip = .origin ∨ pipe.store.HasHeader stable.tip) := by
  obtain ⟨ledger, hledger, h⟩ := bind_eq_ok_iff.1 h
  have hnew := mapError_eq_ok_iff.1 hledger
  obtain ⟨s, hrealigned, h⟩ := bind_eq_ok_iff.1 h
  have hledgerTip : ledger.tip = stable.tip := by
    have hlast := getLast?_chain ledger
    rw [chain_of_new hnew] at hlast
    exact (some.inj hlast).symm
  rw [hledgerTip] at hrealigned h
  have hwithin : s.Within tree := by
    obtain ⟨validity, bestChain, rfl, -⟩ := exists_of_realignChainStoreTo hrealigned
    exact hdisk.within.congr rfl rfl
  split at h
  · cases h
  rename_i point hload
  cases h
  have hpoint : point = stable.tip ∧ (stable.tip = .origin ∨ s.HasHeader stable.tip) := by
    rcases hdisk.tip with horigin | hhas
    · rw [horigin] at hload ⊢
      exact ⟨(some.inj hload).symm, .inl rfl⟩
    obtain ⟨header, hheader, heq⟩ := hhas
    rw [loadPoint] at hload
    split_ifs at hload with hzero
    · rw [hzero, tree.header_origin] at hheader
      cases hheader
    obtain ⟨header', hheader', rfl⟩ := map_eq_some_iff.1 hload
    have hsame := hwithin.header_eq hheader'
    rw [hheader] at hsame
    cases hsame
    exact ⟨heq, .inr ⟨header, hheader', heq⟩⟩
  rw [hpoint.1]
  exact ⟨⟨ledger, hnew, rfl⟩, hrealigned, rfl, rfl, rfl, rfl, hpoint.2⟩

theorem live_or_idle_of_start (hdisk : Disk tree stable chainStore)
    (h : start env config stable snapshots chainStore = .ok pipe) :
    pipe.Live tree env ∨ pipe.Idle tree := by
  obtain ⟨⟨ledger, hnew, hledger⟩, hrealigned, hvalidate, hadopt, htoAdopt, hannounced, hheader⟩ :=
    exists_of_start hdisk h
  obtain ⟨validity, bestChain, hstore', hbestChain⟩ :=
    exists_of_realignChainStoreTo hrealigned
  have hwithin : pipe.store.Within tree :=
    hdisk.within.congr (by rw [hstore']) (by rw [hstore'])
  have hchain : pipe.ledger.chain = [stable.tip] := by rw [hledger, chain_of_new hnew]
  rcases hheader with horigin | hheader
  · rw [horigin] at hchain hvalidate hadopt hstore' hbestChain
    refine .inr ⟨hwithin, hchain, by rw [hvalidate]; rfl, by rw [hadopt]; rfl, by rw [hstore'],
      fun {slot p} hget ↦ ?_, htoAdopt, hannounced⟩
    rw [hstore'] at hget
    -- only the origin is left on a best chain that ends there
    rcases hbestChain with ⟨htip, rfl⟩ | ⟨hany, rfl⟩
    · rw [SortedMap.get?_insert] at hget
      split_ifs at hget
      · rw [← some.inj hget]
        rfl
      · exact hdisk.hash_eq htip hget
    · rw [SortedMap.get?_filter, filter_eq_some_iff, decide_eq_true_iff] at hget
      obtain ⟨q, hget', hhash⟩ := (any_eq_true _ _).1 hany
      rw [Nat.le_zero.1 hget.2] at hget
      rw [← some.inj (hget'.symm.trans hget.1)]
      exact of_decide_eq_true hhash
  · refine .inl ⟨hwithin, hledger ▸ wellFormed_new hnew, ?_, ?_, ?_, ?_⟩
    · have hlength := length_chain pipe.ledger
      rw [hchain] at hlength
      rw [← Nat.succ.inj hlength]
      exact Nat.zero_le _
    · rw [hchain]
      exact .singleton _
    · have hlast := getLast?_chain pipe.ledger
      rw [hchain] at hlast
      rw [hvalidate]
      exact (some.inj hlast).symm
    · rw [hvalidate]
      exact hheader

/-- **In every state of a run the ledger holds a path that ends at the current tip**, or it is empty
and nothing has moved. -/
theorem Reachable.live_or_idle
    (h : Reachable tree env condition pipe) : pipe.Live tree env ∨ pipe.Idle tree := by
  induction h with
  | start hdisk h => exact live_or_idle_of_start hdisk h
  | validate _ hmsg _ h ih =>
    exact ih.imp (fun hlive ↦ hlive.validate hmsg h) (fun hidle ↦ hidle.validate h)
  | adopt _ h ih => exact ih.imp (fun hlive ↦ hlive.adopt h) (fun hidle ↦ hidle.adopt h)
  | grow _ hgrows hstore ih =>
    exact ih.imp (fun hlive ↦ hlive.grow hgrows hstore) (fun hidle ↦ hidle.grow hgrows hstore)

theorem Reachable.within (h : Reachable tree env condition pipe) : pipe.store.Within tree :=
  h.live_or_idle.elim Live.within Idle.within

/-! ### Several messages -/

/-- The first stage handles one block after another. -/
def validateAll (env : Environment Body) (pipe : Pipeline Body) (msgs : List ValidateBlockMsg) :
    Except Termination (Pipeline Body) :=
  msgs.foldlM (fun pipe msg ↦ (pipe.validate env msg).map Prod.fst) pipe

/-- The second stage handles all its messages. -/
def adoptAll (pipe : Pipeline Body) : Except Termination (Pipeline Body) :=
  pipe.toAdopt.foldlM (fun pipe _ ↦ pipe.adopt) pipe

/-- What says that a block may be handed over, where it can be evaluated. -/
def isHanded (s : ChainStore Body) (msg : ValidateBlockMsg) : Bool :=
  (s.loadHeader msg.tip.hash).any fun header ↦
    header.point = msg.tip && header.parent = some msg.parent.hash &&
      (s.loadHeader msg.parent.hash).any (·.point = msg.parent)

theorem handed_of_isHanded (hstore : pipe.store.Within tree)
    (h : isHanded pipe.store msg = true) : pipe.Handed tree msg := by
  obtain ⟨header, hheader, h⟩ := (any_eq_true _ _).1 h
  simp only [Bool.and_eq_true, decide_eq_true_iff] at h
  obtain ⟨⟨hpoint, hparent⟩, hany⟩ := h
  obtain ⟨header', hheader', hpoint'⟩ := (any_eq_true _ _).1 hany
  have hchild := hstore.child ⟨header', hheader', of_decide_eq_true hpoint'⟩ hheader hparent
  exact ⟨⟨header, hheader, hpoint⟩, .inr (hpoint ▸ hchild)⟩

/-- Each block may be handed over, and passes a check, when its turn comes. -/
def passAll (env : Environment Body) (check : Pipeline Body → ValidateBlockMsg → Bool) :
    Pipeline Body → List ValidateBlockMsg → Bool
  | _, [] => true
  | pipe, msg :: msgs => isHanded pipe.store msg && check pipe msg &&
    match pipe.validate env msg with
    | .ok (pipe, _) => passAll env check pipe msgs
    | .error _ => false

theorem Reachable.validateAll {check msgs} (hpipeline : Reachable tree env condition pipe)
    (hcheck : ∀ pipe msg, check pipe msg = true → condition pipe msg)
    (hmsgs : passAll env check pipe msgs = true) (h : pipe.validateAll env msgs = .ok pipe') :
    Reachable tree env condition pipe' := by
  induction msgs generalizing pipe with
  | nil => cases h; exact hpipeline
  | cons msg msgs ih =>
    obtain ⟨next, hnext, h⟩ := bind_eq_ok_iff.1 h
    obtain ⟨⟨next, signals⟩, hvalidate, rfl⟩ := map_eq_ok_iff.1 hnext
    rw [passAll, hvalidate, Bool.and_eq_true, Bool.and_eq_true] at hmsgs
    exact ih (.validate hpipeline (handed_of_isHanded hpipeline.within hmsgs.1.1)
      (hcheck _ _ hmsgs.1.2) hvalidate) hmsgs.2 h

theorem Reachable.adoptAll
    (hpipeline : Reachable tree env condition pipe) (h : pipe.adoptAll = .ok pipe') :
    Reachable tree env condition pipe' := by
  rw [Pipeline.adoptAll] at h
  generalize pipe.toAdopt = msgs at h
  induction msgs generalizing pipe with
  | nil => cases h; exact hpipeline
  | cons msg msgs ih =>
    obtain ⟨next, hnext, h⟩ := bind_eq_ok_iff.1 h
    exact ih (.adopt hpipeline hnext) h

/-! ### A small node -/

/-- A header of the small node. -/
def headerAt (slot height : ℕ) (parent : Option ℕ) : Header :=
  { hash := slot, slot, blockHeight := height, parent, vrfLeader := slot, opCertSeq := 0 }

/-- A point of the small node. -/
def pointAt (slot height : ℕ) : Point := .specific slot slot height

/-- The body of the block with a header. -/
def bodyOf (header : Header) (valid : Bool) : Block Bool where
  slot := header.slot
  hash := header.hash
  height := header.blockHeight
  issuer := 0
  body := valid

/-- A chain store with headers and bodies, whose best chain ends at the root. -/
def storeWith (root : Point) (blocks : List (Header × Bool)) : ChainStore Bool where
  headers := .ofList (blocks.map fun (header, _) ↦ (header.hash, header))
  validity := ∅
  blocks := .ofList (blocks.map fun (header, valid) ↦ (header.hash, bodyOf header valid))
  anchor := root
  bestChain := .ofList [(root.slotOrDefault, root)]
  bestChainTip := root

end Pipeline

end Amaru
