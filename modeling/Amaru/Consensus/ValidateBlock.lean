import Amaru.Consensus.Walk

/-!
# The stage that validates blocks

The stage is handed one block after another, each with its own tip. One that extends the ledger is
rolled forward; another is taken for the tip of a fork if it is **strictly better** than the current
tip, and the ledger is asked to switch to it. The stage tells chain selection about the verdict, and the
stage that adopts chains about the new tip.

An error of the ledger or of the store, as opposed to an invalid block, terminates the stage.
-/

namespace Amaru

open Except List

/-- Why a stage terminates. -/
inductive Termination
  | validateFromGenesis
  | headerNotFound (hash : ℕ)
  | noCommonAncestor (ledgerTip tip : Point)
  | brokenChain (forkPoint tip : Point)
  | blockNotFound (hash : ℕ)
  | alreadyApplied (tip : Point)
  | invalidForkLength (rollbackLength forkLength : ℕ)
  | ledger (error : StateError)
  | noAncestorOnBestChain (tip : Point)
  | forkPointNotOnBestChain (forkPoint : Point)
  | recoverInconsistent
  | missingBlocksPending
  | fetchAlreadyAllowed
  | findBestCandidateFailed

/-- A message to the stage: a block, with its parent. -/
structure ValidateBlockMsg where
  tip : Point
  parent : Point
  maxBlockHeight : ℕ
deriving DecidableEq, Repr

/-- What the stage sends. -/
inductive ValidateBlockSignal
  /-- To chain selection: the verdict on a block. -/
  | blockValidationResult (point : Point) (valid : Bool) (maxBlockHeight : ℕ)
  /-- To the source of blocks: the verdict on a block. -/
  | validation (valid : Bool) (point : Point)
  /-- To the stage that adopts chains: a new tip. -/
  | adoptChain (tip : Point) (maxBlockHeight : ℕ)
deriving DecidableEq, Repr

/-- The state of the stage. -/
structure ValidateBlock where
  hasBlockSource : Bool
  /-- The tip of the ledger. -/
  current : Point
  maxBlockHeight : ℕ
  consensusSecurityParam : ℕ
  /-- The blocks that are invalid, and those that were refused on top of them, with their heights. -/
  invalidBlocks : SortedMap ℕ ℕ

namespace ValidateBlock

variable {Body : Type} {tree : HeaderTree} {forkPoint ledgerTip tip : Point}

/-- The stage at start. -/
def new (hasBlockSource : Bool) (consensusSecurityParam : ℕ) (current : Point) : ValidateBlock where
  hasBlockSource
  current
  maxBlockHeight := 0
  consensusSecurityParam
  invalidBlocks := ∅

variable (stage : ValidateBlock)

/-- Tell the others about a valid block, which becomes the current tip. -/
def completed (tip : Point) : ValidateBlock × List ValidateBlockSignal :=
  ({ stage with
      -- what is deeper than the security parameter cannot be selected again
      invalidBlocks := stage.invalidBlocks.filter fun _ height ↦
        decide (tip.blockHeight < height + stage.consensusSecurityParam)
      current := tip },
    [.blockValidationResult tip true stage.maxBlockHeight] ++
    (if stage.hasBlockSource then [.validation true tip] else []) ++
    [.adoptChain tip stage.maxBlockHeight])

/-- Tell the others about an invalid block, and remember it with the one that was asked for. -/
def error (msg : ValidateBlockMsg) (failedTip : Point) : ValidateBlock × List ValidateBlockSignal :=
  ({ stage with
      invalidBlocks := (stage.invalidBlocks.insert failedTip.hash failedTip.blockHeight).insert
        msg.tip.hash msg.tip.blockHeight },
    [.blockValidationResult failedTip false stage.maxBlockHeight] ++
    (if stage.hasBlockSource then [.validation false failedTip] else []))

/-! ### The ledger -/

/-- Roll the ledger forward with a stored block. -/
def validateBlockEffect (env : Environment Body) (store : ChainStore Body) (ledger : State)
    (point : Point) : Except Termination (State × State.BlockValidation) :=
  match store.loadBlock point.hash with
  | none => .error (.blockNotFound point.hash)
  | some block => (ledger.rollForward env block).mapError .ledger

/-- The body of a block. -/
def loadForkBlock (store : ChainStore Body) (tip : Point) : Except Termination (Block Body) :=
  match store.loadBlock tip.hash with
  | none => .error (.blockNotFound tip.hash)
  | some block => .ok block

/-- The blocks from the fork point with the ledger up to a tip. -/
def forkTo (store : ChainStore Body) (ledgerTip tip : Point) :
    Except Termination (Point × List (Block Body)) :=
  match store.findCommonAncestor tip.hash ledgerTip.hash with
  | .headerNotFound hash => .error (.headerNotFound hash)
  | .notFound => .error (.noCommonAncestor ledgerTip tip)
  | .found forkPoint =>
    match store.ancestorsBetween forkPoint tip.hash with
    | none => .error (.brokenChain forkPoint tip)
    | some forwardTips => do
      let forwardBlocks ← forwardTips.mapM (loadForkBlock store)
      if forwardBlocks.isEmpty then .error (.alreadyApplied tip) else .ok (forkPoint, forwardBlocks)

variable {store : ChainStore Body} {blocks : List (Block Body)}

theorem map_point_of_mapM (hstore : store.Within tree) {tips} (htips : ∀ tip ∈ tips, store.HasHeader tip)
    (h : tips.mapM (loadForkBlock store) = .ok blocks) :
    blocks.map Block.point = tips := by
  induction tips generalizing blocks with
  | nil => cases h; rfl
  | cons tip tips ih =>
    rw [mapM_cons] at h
    obtain ⟨block, hblock, h⟩ := bind_eq_ok_iff.1 h
    obtain ⟨rest, hrest, h⟩ := bind_eq_ok_iff.1 h
    cases h
    have hpoint : block.point = tip := by
      rw [loadForkBlock] at hblock
      split at hblock
      · cases hblock
      rename_i loaded hload
      cases hblock
      obtain ⟨header, hheader, heq⟩ := htips tip (mem_cons_self ..)
      obtain ⟨header', hheader', heq'⟩ := hstore.exists_header hload
      rw [hheader] at hheader'
      rw [heq', ← Option.some.inj hheader', heq]
    rw [map_cons, hpoint, ih (fun p hp ↦ htips p (mem_cons_of_mem _ hp)) hrest]

/-- What the ledger is asked to switch to: a path from a common ancestor to the tip. -/
structure ForkPath (tree : HeaderTree) (store : ChainStore Body) (ledgerTip tip forkPoint : Point)
    (blocks : List (Block Body)) : Prop where
  isChain : List.IsChain tree.Child (forkPoint :: blocks.map Block.point)
  getLast?_eq : (forkPoint :: blocks.map Block.point).getLast? = some tip
  ne_nil : blocks ≠ []
  hasHeader : ∀ p ∈ blocks.map Block.point, store.HasHeader p
  ancestor : tree.Ancestor forkPoint ledgerTip
  anchor_ancestor : tree.Ancestor store.anchor ledgerTip → tree.Ancestor store.anchor forkPoint

theorem forkPath_of_forkTo (hstore : store.Within tree) (hledger : tree.Has ledgerTip)
    (htip : tree.Has tip) (h : forkTo store ledgerTip tip = .ok (forkPoint, blocks)) :
    ForkPath tree store ledgerTip tip forkPoint blocks := by
  rw [forkTo] at h
  split at h
  · cases h
  · cases h
  rename_i common hcommon
  split at h
  · cases h
  rename_i path hbetween
  obtain ⟨loaded, hloaded, h⟩ := bind_eq_ok_iff.1 h
  split_ifs at h with hempty
  cases h
  obtain ⟨-, header, -, ancestor, -, hheader, -, -, hancestor, rfl⟩ :=
    ChainStore.exists_of_findCommonAncestor hcommon
  have hpoint : header.point = ledgerTip :=
    ((hstore.hasHeader hheader).has hstore).eq_of_hash_eq hledger (hstore.hash_eq hheader)
  have hstart := (hstore.hasHeader_of_mem hheader hancestor).has hstore
  obtain ⟨hchain, hheaders, hlast⟩ := hstore.isChain_of_ancestorsBetween hstart htip hbetween
  rw [← map_point_of_mapM hstore hheaders hloaded] at hchain hlast hheaders
  refine ⟨hchain, hlast, fun hnil ↦ hempty (by rw [hnil]; rfl), hheaders, ?_, ?_⟩
  · rw [← hpoint]
    exact hstore.ancestor_of_mem hheader hancestor
  · rw [← hpoint]
    exact hstore.anchor_ancestor_of_mem hheader hancestor

theorem ForkPath.follows (h : ForkPath tree store ledgerTip tip forkPoint blocks) :
    List.IsChain Point.Before (forkPoint :: blocks.map Block.point) :=
  h.isChain.imp fun _ _ hchild ↦ hchild.before

theorem ForkPath.getLast?_points (h : ForkPath tree store ledgerTip tip forkPoint blocks) :
    (blocks.map Block.point).getLast? = some tip := by
  have hlast := h.getLast?_eq
  obtain ⟨block, blocks, rfl⟩ := exists_cons_of_ne_nil h.ne_nil
  rwa [map_cons, getLast?_cons_cons] at hlast

/-- Ask the ledger to switch to a fork. -/
def switchToForkEffect (env : Environment Body) (store : ChainStore Body) (ledger : State)
    (tip : Point) : Except Termination (State × State.ForkSwitchOutcome) := do
  let (forkPoint, blocks) ← forkTo store ledger.tip tip
  (ledger.switchToFork env forkPoint blocks).mapError .ledger

/-! ### The stage -/

/-- Whether the block is known to be invalid, or to descend from one that is. -/
def isRefused (msg : ValidateBlockMsg) : Bool :=
  stage.invalidBlocks.contains msg.parent.hash || stage.invalidBlocks.contains msg.tip.hash

/-- Whether the block is strictly better than the current tip. -/
def isBetter (store : ChainStore Body) (stage : ValidateBlock) (msg : ValidateBlockMsg) : Bool :=
  cmpTip (store.loadHeader msg.tip.hash) (store.loadHeader stage.current.hash) = .gt

/-- Handle a switch that has ended. A fork of the wrong length is an error of the ledger. -/
def afterSwitch (msg : ValidateBlockMsg) :
    State.ForkSwitchOutcome → Except Termination (ValidateBlock × List ValidateBlockSignal)
  | .completed => .ok (stage.completed msg.tip)
  | .partiallyApplied appliedTip failure =>
    let (stage, signals) := stage.completed appliedTip
    let (stage, signals') := stage.error msg failure.tip
    .ok (stage, signals ++ signals')
  | .failed failure => .ok (stage.error msg failure.tip)
  | .invalidForkLength rollbackLength forkLength =>
    .error (.invalidForkLength rollbackLength forkLength)

/-- The stage once it has seen how high the chain is. -/
def seen (msg : ValidateBlockMsg) : ValidateBlock :=
  { stage with maxBlockHeight := max msg.maxBlockHeight stage.maxBlockHeight }

/-- Handle a message. -/
def handle (env : Environment Body) (store : ChainStore Body) (ledger : State)
    (stage : ValidateBlock) (msg : ValidateBlockMsg) :
    Except Termination (State × ValidateBlock × List ValidateBlockSignal) :=
  if msg.parent = .origin then .error .validateFromGenesis
  else if (stage.seen msg).isRefused msg then .ok (ledger, (stage.seen msg).error msg msg.tip)
  else if msg.parent = (stage.seen msg).current then do
    let (ledger, verdict) ← validateBlockEffect env store ledger msg.tip
    match verdict with
    | .valid => .ok (ledger, (stage.seen msg).completed msg.tip)
    | .invalid _ => .ok (ledger, (stage.seen msg).error msg msg.tip)
  else if (stage.seen msg).isBetter store msg then do
    let (ledger, outcome) ← switchToForkEffect env store ledger msg.tip
    ((stage.seen msg).afterSwitch msg outcome).map (ledger, ·)
  else .ok (ledger, stage.seen msg, [])

/-- Every way a message is handled. -/
inductive Handled (env : Environment Body) (store : ChainStore Body) (ledger : State)
    (stage : ValidateBlock) (msg : ValidateBlockMsg) :
    State × ValidateBlock × List ValidateBlockSignal → Prop
  | refused (hrefused : stage.isRefused msg = true) :
    Handled env store ledger stage msg (ledger, stage.error msg msg.tip)
  | extended {block ledger'} (hrefused : stage.isRefused msg = false) (hparent : msg.parent = stage.current)
    (hblock : store.loadBlock msg.tip.hash = some block)
    (h : ledger.rollForward env block = .ok (ledger', .valid)) :
    Handled env store ledger stage msg (ledger', stage.completed msg.tip)
  | rejected {block ledger' failure} (hrefused : stage.isRefused msg = false)
    (hparent : msg.parent = stage.current) (hblock : store.loadBlock msg.tip.hash = some block)
    (h : ledger.rollForward env block = .ok (ledger', .invalid failure)) :
    Handled env store ledger stage msg (ledger', stage.error msg msg.tip)
  | skipped (hbetter : stage.isBetter store msg = false) :
    Handled env store ledger stage msg (ledger, stage, [])
  | switched {forkPoint blocks ledger' outcome stage' signals} (hrefused : stage.isRefused msg = false)
    (hparent : msg.parent ≠ stage.current) (hbetter : stage.isBetter store msg = true)
    (hfork : forkTo store ledger.tip msg.tip = .ok (forkPoint, blocks))
    (h : ledger.switchToFork env forkPoint blocks = .ok (ledger', outcome))
    (hafter : stage.afterSwitch msg outcome = .ok (stage', signals)) :
    Handled env store ledger stage msg (ledger', stage', signals)

theorem handled_of_handle {env ledger stage msg result} (h : handle env store ledger stage msg = .ok result) :
    msg.parent ≠ .origin ∧ Handled env store ledger (stage.seen msg) msg result := by
  rw [handle] at h
  split_ifs at h with horigin hrefused hparent hbetter
  · cases h
    exact ⟨horigin, .refused hrefused⟩
  · rw [Bool.not_eq_true] at hrefused
    obtain ⟨⟨ledger', verdict⟩, heffect, h⟩ := bind_eq_ok_iff.1 h
    rw [validateBlockEffect] at heffect
    split at heffect
    · cases heffect
    rename_i block hblock
    have hforward := mapError_eq_ok_iff.1 heffect
    cases verdict with
    | valid =>
      cases h
      exact ⟨horigin, .extended hrefused hparent hblock hforward⟩
    | invalid failure =>
      cases h
      exact ⟨horigin, .rejected hrefused hparent hblock hforward⟩
  · obtain ⟨⟨ledger', outcome⟩, heffect, h⟩ := bind_eq_ok_iff.1 h
    obtain ⟨⟨forkPoint, blocks⟩, hfork, hswitch⟩ := bind_eq_ok_iff.1 heffect
    obtain ⟨⟨stage', signals⟩, hafter, rfl⟩ := map_eq_ok_iff.1 h
    rw [Bool.not_eq_true] at hrefused
    exact ⟨horigin, .switched hrefused hparent hbetter hfork (mapError_eq_ok_iff.1 hswitch) hafter⟩
  · cases h
    exact ⟨horigin, .skipped (Bool.not_eq_true _ ▸ hbetter)⟩

end ValidateBlock

end Amaru
