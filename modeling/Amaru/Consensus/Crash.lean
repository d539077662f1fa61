import Amaru.Consensus.Agreement
import Amaru.Consensus.BestChain
import Amaru.Ledger.State.Writes

/-!
# What a crash leaves

The ledger store and the chain store are written by different stages: the first while blocks are rolled
forward, the second later, when the new tip is adopted. A crash leaves each of them after any of its
writes (`OnDisk`).

The ledger only writes a block with the whole volatile window after it. The tips that wait to be adopted
are as many **hops** away from the best chain of the store, each of which keeps the ancestors from some
depth on. If the depth of the forks and the number of tips that wait do not add up to more than the
window, **the tip of the ledger store is on the best chain** (`crash_leaves_consistent_stores`).

A fork as deep as the window is too deep: its first block is written before the best chain is switched
(`crash_after_deepest_fork`).
-/

namespace Amaru

open List State Ancestry AdoptChain ChainStore Bool Point Nat Block HeaderTree

variable {Body : Type}

/-- The ledger store after each write that handling a block makes. -/
def ValidateBlock.writes (env : Environment Body) (s : ChainStore Body) (ledger : State)
    (st : ValidateBlock) (msg : ValidateBlockMsg) : List Store :=
  if msg.parent = .origin then []
  else if (st.seen msg).isRefused msg then []
  else if msg.parent = (st.seen msg).current then
    match s.loadBlock msg.tip.hash with
    | none => []
    | some block => ledger.rollForwardWrites env block
  else if (st.seen msg).isBetter s msg then
    match ValidateBlock.forkTo s ledger.tip msg.tip with
    | .error _ => []
    | .ok (fork, blocks) => ledger.switchToForkWrites env fork blocks
  else []

/-- The chain store after each write that handling a tip makes: the best chain, then the anchor. -/
def AdoptChain.writes (s : ChainStore Body) (st : AdoptChain) (msg : AdoptChainMsg) :
    List (ChainStore Body) :=
  if msg.tip.blockHeight < (st.seen msg).currentBestTip.blockHeight then []
  else match s.loadHeader msg.tip.hash with
    | none => []
    | some incoming => match (st.seen msg).loadCurrentBest s with
      | .error _ => []
      | .ok currentBest =>
        if cmpTip (some incoming) currentBest = .gt then
          match adoptBest s incoming currentBest with
          | .error _ => []
          | .ok adopted =>
            [adopted, dragAnchorForward adopted msg.tip st.consensusSecurityParam]
        else []

namespace Pipeline

variable {tree : HeaderTree} {env : Environment Body} {pipe pipe' : Pipeline Body}
  {msg : ValidateBlockMsg} {depth queue : ℕ} {root : Point} {stable : Store}
  {cs s : ChainStore Body} {fork : Point} {base ledger : State}
  {guard : State.RollbackGuard} {signals : List ValidateBlockSignal} {st : ValidateBlock}
  {blocks : List (Block Body)} {currentBest : Option Header} {toAdopt : List AdoptChainMsg} {tip : Point}

/-- The ledger store after each write that handling a block makes. -/
def writes (env : Environment Body) (pipe : Pipeline Body) (msg : ValidateBlockMsg) : List Store :=
  ValidateBlock.writes env pipe.store pipe.ledger pipe.validateBlock msg

/-- What goes on while the first stage handles a block. -/
inductive Meanwhile (tree : HeaderTree) : Pipeline Body → Pipeline Body → Prop
  | adopt {pipe pipe' : Pipeline Body} (h : pipe.adopt = .ok pipe') : Meanwhile tree pipe pipe'
  | grow {pipe : Pipeline Body} {s} (hgrows : pipe.store.Grows s)
    (hstore : s.Within tree) : Meanwhile tree pipe { pipe with store := s }

/-- The ledger store as a crash may leave it. -/
def LedgerOnDisk (tree : HeaderTree) (env : Environment Body)
    (condition : Pipeline Body → ValidateBlockMsg → Prop) (pipe : Pipeline Body) (stable : Store) :
    Prop :=
  stable = pipe.ledger.stable ∨
    ∃ msg, pipe.Handed tree msg ∧ condition pipe msg ∧ stable ∈ pipe.writes env msg

/-- The chain store as a crash may leave it. -/
def ChainOnDisk (pipe : Pipeline Body) (cs : ChainStore Body) : Prop :=
  cs = pipe.store ∨ ∃ msg toAdopt, pipe.toAdopt = msg :: toAdopt ∧
    cs ∈ AdoptChain.writes pipe.store pipe.adoptChain msg

/-- The two stores as a crash may leave them. -/
def OnDisk (tree : HeaderTree) (env : Environment Body)
    (condition : Pipeline Body → ValidateBlockMsg → Prop) (stable : Store)
    (cs : ChainStore Body) : Prop :=
  ∃ pipe pipe', Reachable tree env condition pipe ∧ pipe.LedgerOnDisk tree env condition stable ∧
    Relation.ReflTransGen (Meanwhile tree) pipe pipe' ∧ pipe'.ChainOnDisk cs

/-- Handling the block asks the ledger to roll forward with it. -/
structure AsksExtend (pipe : Pipeline Body) (msg : ValidateBlockMsg) (block : Block Body) : Prop where
  isRefused_eq : pipe.validateBlock.isRefused msg = false
  parent_eq : msg.parent = pipe.validateBlock.current
  loadBlock_eq : pipe.store.loadBlock msg.tip.hash = some block

/-- Few tips wait to be adopted, a fork to switch to is not deep, and no block has a boundary written
while blocks of the epoch before are volatile. -/
structure Shallow (env : Environment Body) (depth queue : ℕ) (pipe : Pipeline Body)
    (msg : ValidateBlockMsg) : Prop where
  room : pipe.toAdopt.length < queue
  depth_le : ∀ fork blocks, pipe.AsksSwitch msg fork blocks →
    pipe.validateBlock.current.blockHeight ≤ fork.blockHeight + depth
  calm_fork : ∀ fork blocks, pipe.AsksSwitch msg fork blocks →
    ∀ guard base, pipe.ledger.rollbackTo fork = .ok (guard, base) → State.Calm env base.volatile blocks
  calm_block : ∀ block, pipe.AsksExtend msg block → State.Calm env pipe.ledger.volatile [block]

/-- A condition on all blocks is one on all but the last. -/
theorem Shallow.calmFork (h : pipe.Shallow env depth queue msg) : pipe.CalmFork env msg :=
  fun fork blocks hasks guard base hroll ↦
    (h.calm_fork fork blocks hasks guard base hroll).of_front (List.dropLast_prefix _)

/-! ### The writes of the ledger -/

theorem writes_cases (h : stable ∈ pipe.writes env msg) : msg.parent ≠ .origin ∧
    ((∃ block, pipe.AsksExtend msg block ∧ stable ∈ pipe.ledger.rollForwardWrites env block) ∨
      ∃ fork blocks, pipe.AsksSwitch msg fork blocks ∧
        stable ∈ pipe.ledger.switchToForkWrites env fork blocks) := by
  rw [writes, ValidateBlock.writes] at h
  split_ifs at h with horigin hrefused hparent hbetter
  · cases h
  · cases h
  · split at h
    · cases h
    · next hblock => exact ⟨horigin, .inl ⟨_, ⟨not_eq_true _ ▸ hrefused, hparent, hblock⟩, h⟩⟩
  · split at h
    · cases h
    · next hfork => exact ⟨horigin, .inr ⟨_, _, ⟨not_eq_true _ ▸ hrefused, hparent, hbetter, hfork⟩, h⟩⟩
  · cases h

theorem AsksExtend.writes_eq {block} (h : pipe.AsksExtend msg block) (horigin : msg.parent ≠ .origin) :
    pipe.writes env msg = pipe.ledger.rollForwardWrites env block := by
  have hrefused : (pipe.validateBlock.seen msg).isRefused msg = false := h.isRefused_eq
  have hparent : msg.parent = (pipe.validateBlock.seen msg).current := h.parent_eq
  rw [writes, ValidateBlock.writes, if_neg horigin, hrefused, if_neg Bool.false_ne_true,
    if_pos hparent, h.loadBlock_eq]

theorem AsksSwitch.writes_eq (h : pipe.AsksSwitch msg fork blocks) (horigin : msg.parent ≠ .origin) :
    pipe.writes env msg = pipe.ledger.switchToForkWrites env fork blocks := by
  have hrefused : (pipe.validateBlock.seen msg).isRefused msg = false := h.isRefused_eq
  have hparent : msg.parent ≠ (pipe.validateBlock.seen msg).current := h.parent_ne
  have hbetter : (pipe.validateBlock.seen msg).isBetter pipe.store msg = true := h.isBetter_eq
  rw [writes, ValidateBlock.writes, if_neg horigin, hrefused, if_neg Bool.false_ne_true,
    if_neg hparent, hbetter, if_pos rfl, h.forkTo_eq]

/-- The ledger store that handling a block returns is as the last write left it. -/
theorem mem_writes_of_handle
    (h : ValidateBlock.handle env pipe.store pipe.ledger pipe.validateBlock msg = .ok (ledger, st, signals)) :
    ledger.stable = pipe.ledger.stable ∨ ledger.stable ∈ pipe.writes env msg := by
  obtain ⟨horigin, hhandled⟩ := ValidateBlock.handled_of_handle h
  cases hhandled with
  | refused => exact .inl rfl
  | extended hrefused hparent hblock hforward | rejected hrefused hparent hblock hforward =>
    rw [AsksExtend.writes_eq ⟨hrefused, hparent, hblock⟩ horigin]
    exact (endsAt_rollForwardWrites hforward).mem
  | skipped => exact .inl rfl
  | switched hrefused hparent hbetter hfork hswitch =>
    rw [AsksSwitch.writes_eq ⟨hrefused, hparent, hbetter, hfork⟩ horigin]
    exact (endsAt_switchToForkWrites hswitch).mem

/-- A point with some more after it, in a path. -/
theorem deep_of_hasAfter {points first last p count} (hpoints : List.IsChain tree.Child (first :: points))
    (hlast : (first :: points).getLast? = some last) (h : State.HasAfter (first :: points) count p) :
    tree.Ancestor first p ∧ tree.Ancestor p last ∧ p.blockHeight + count = last.blockHeight := by
  obtain ⟨older, newer, hsplit, rfl⟩ := h
  have hmem : p ∈ first :: points := by rw [hsplit]; simp
  refine ⟨ancestor_of_isChain hpoints hmem, ?_⟩
  rw [hsplit] at hpoints hlast
  rw [getLast?_append_of_ne_nil _ (cons_ne_nil _ _)] at hlast
  have hnewer := (List.isChain_append.1 hpoints).2.1
  exact ⟨ancestor_getLast hnewer hlast, (rank_getLast tree.ranked_child hnewer hlast).symm⟩

section

variable (hlive : pipe.Live tree env)
include hlive

/-- The current tip is as many blocks above the tip of the store as there are volatile ones. -/
theorem Live.height_current :
    pipe.validateBlock.current.blockHeight =
      pipe.ledger.stable.tip.blockHeight + pipe.ledger.volatile.length := by
  have hlast := getLast?_chain pipe.ledger
  rw [hlive.tip_eq] at hlast
  have hrank := rank_getLast tree.ranked_child hlive.isChain hlast
  have hlength := length_chain pipe.ledger
  rw [hrank, succ.inj hlength]

/-- The current tip is as many blocks above a fork point as are rolled back. -/
theorem Live.height_of_rollbackTo (h : pipe.ledger.rollbackTo fork = .ok (guard, base)) :
    pipe.validateBlock.current.blockHeight = fork.blockHeight + guard.kind.rollbackLength := by
  have hcount := length_of_rollbackTo h
  have hchain : List.IsChain tree.Child base.chain :=
    List.IsChain.prefix hlive.isChain (prefix_of_rollbackTo h)
  have hlast := getLast?_chain base
  rw [tip_of_rollbackTo h] at hlast
  have hrank := rank_getLast tree.ranked_child hchain hlast
  have hlength := length_chain base
  rw [succ.inj hlength, stable_of_rollbackTo h] at hrank
  rw [hlive.height_current]
  omega

theorem Live.stable_ancestor (h : pipe.ledger.rollbackTo fork = .ok (guard, base)) :
    tree.Ancestor pipe.ledger.stable.tip fork := by
  have hlast := getLast?_chain base
  rw [tip_of_rollbackTo h] at hlast
  exact ancestor_of_isChain hlive.isChain ((prefix_of_rollbackTo h).subset (mem_of_getLast? hlast))

theorem Live.stable_ancestor_current : tree.Ancestor pipe.ledger.stable.tip pipe.validateBlock.current := by
  have hlast := getLast?_chain pipe.ledger
  rw [hlive.tip_eq] at hlast
  exact ancestor_getLast hlive.isChain hlast

theorem Live.hop_of_switch (hshallow : pipe.Shallow env depth queue msg)
    (hasks : pipe.AsksSwitch msg fork blocks)
    (hfork : ValidateBlock.ForkPath tree pipe.store pipe.ledger.tip msg.tip fork blocks)
    (hroll : pipe.ledger.rollbackTo fork = .ok (guard, base))
    (hlength : blocks.length ≤ guard.kind.rollbackLength + 1) :
    Ancestry.Hop tree.Child blockHeight depth pipe.validateBlock.current msg.tip := by
  have hheight := rank_getLast tree.ranked_child hfork.isChain hfork.getLast?_eq
  rw [length_map] at hheight
  refine .of_fork tree.ranked_child tree.leftUnique_child ?_
    (ancestor_getLast hfork.isChain hfork.getLast?_eq) (hshallow.depth_le _ _ hasks) ?_
  · rw [← hlive.tip_eq]
    exact hfork.ancestor
  · rw [hheight, hlive.height_of_rollbackTo hroll]
    omega

/-- **Where the tip of the ledger store is** after each write: where it was, or on the way to the block
that is handled, with a whole window after it. -/
theorem Live.tip_of_mem_writes (hmsg : pipe.Handed tree msg)
    (hshallow : pipe.Shallow env depth queue msg) (h : stable ∈ pipe.writes env msg) :
    stable.tip = pipe.ledger.stable.tip ∨
      tree.Ancestor pipe.ledger.stable.tip stable.tip ∧ tree.Ancestor stable.tip msg.tip ∧
        stable.tip.blockHeight + env.consensusSecurityParam ≤ msg.tip.blockHeight ∧
        Ancestry.Hop tree.Child blockHeight depth pipe.validateBlock.current msg.tip := by
  obtain ⟨horigin, ⟨block, hasks, h⟩ | ⟨fork, blocks, hasks, h⟩⟩ := writes_cases h
  · have hchild : tree.Child pipe.validateBlock.current msg.tip :=
      hasks.parent_eq ▸ hmsg.2.resolve_left horigin
    have hpoint := hmsg.point_eq hlive.within hasks.loadBlock_eq
    have hextends := hlive.extends_of_child block (hpoint ▸ hchild)
    refine (eq_or_hasAfter hlive.length_le (tip_of_mem_rollForwardWrites hlive.wellFormed
      hextends (hshallow.calm_block block hasks) h)).imp_right fun hafter ↦ ?_
    rw [hpoint] at hafter
    have hpath := isChain_append hlive.isChain (getLast?_chain _)
      (by rw [hlive.tip_eq]; exact .cons_cons hchild (.singleton _))
    have hend : (pipe.ledger.chain ++ [msg.tip]).getLast? = some msg.tip := getLast?_concat
    obtain ⟨hfirst, hlast, hheight⟩ := deep_of_hasAfter hpath hend hafter
    exact ⟨hfirst, hlast, hheight.le, .of_child tree.ranked_child tree.leftUnique_child _ hchild⟩
  · have hfork := hlive.forkPath hmsg hasks
    refine (tip_of_mem_switchToForkWrites hlive.wellFormed hlive.length_le hfork.follows
      (hshallow.calm_fork _ _ hasks) h).imp_right ?_
    rintro ⟨guard, base, applied, hroll, -, hlength, happlied, hafter⟩
    have hfront : fork :: applied.map point <+: fork :: blocks.map point :=
      (prefix_cons_inj _).2 (happlied.map _)
    have happliedPath : List.IsChain tree.Child (fork :: applied.map point) :=
      List.IsChain.prefix hfork.isChain hfront
    have hpath := hlive.isChain_fork hroll happliedPath
    -- the last block that was applied is on the fork
    obtain ⟨last, hmem, hlast⟩ : ∃ last ∈ fork :: blocks.map point,
        (base.chain ++ applied.map point).getLast? = some last := by
      rw [getLast?_append, getLast?_chain, tip_of_rollbackTo hroll]
      rcases happlied : (applied.map point).getLast? with - | last
      · exact ⟨fork, mem_cons_self .., rfl⟩
      · exact ⟨last, hfront.subset (mem_cons_of_mem _ (mem_of_getLast? happlied)), rfl⟩
    obtain ⟨hfirst, hdeep, hheight⟩ := deep_of_hasAfter hpath hlast hafter
    have hancestor : tree.Ancestor last msg.tip :=
      ancestor_getLast_of_mem hfork.isChain hfork.getLast?_eq hmem
    rw [stable_of_rollbackTo hroll] at hfirst
    exact ⟨hfirst, hdeep.trans hancestor, hheight.trans_le (height_le_of_ancestor hancestor),
      hlive.hop_of_switch hshallow hasks hfork hroll hlength⟩

end

/-! ### The tips that wait -/

/-- The tips that wait to be adopted are hops away from the best chain, and the tip of the ledger store
has a whole window after it. -/
structure Trailing (tree : HeaderTree) (env : Environment Body) (depth queue : ℕ) (root : Point)
    (pipe : Pipeline Body) : Prop where
  recorded : pipe.store.Recorded tree root
  hops : List.IsChain (Ancestry.Hop tree.Child blockHeight depth)
    (pipe.adoptChain.currentBestTip :: pipe.toAdopt.map AdoptChainMsg.tip)
  length_le : pipe.toAdopt.length ≤ queue
  descends : ∀ msg ∈ pipe.toAdopt, tree.Ancestor root msg.tip
  root_ancestor : tree.Ancestor root pipe.ledger.stable.tip
  deep : pipe.ledger.stable.tip = root ∨ pipe.ledger.stable.tip.blockHeight +
    env.consensusSecurityParam ≤ pipe.validateBlock.current.blockHeight

theorem trailing_of_start {config snapshots} (hdisk : Disk tree stable cs)
    (h : start env config stable snapshots cs = .ok pipe) (hlive : pipe.Live tree env) :
    pipe.Trailing tree env depth queue stable.tip := by
  obtain ⟨⟨ledger, hnew, rfl⟩, hrealigned, hvalidate, hadopt, htoAdopt, -, -⟩ := exists_of_start hdisk h
  have hcurrent : pipe.validateBlock.current = stable.tip := by rw [hvalidate]; rfl
  have hstable := (exists_of_new hnew).1
  refine ⟨recorded_of_realignChainStoreTo (hcurrent ▸ hlive.has_current) hdisk.hash_eq
    hrealigned, ?_, ?_, ?_, ?_, .inl ?_⟩
  · rw [htoAdopt]
    exact .singleton _
  · rw [htoAdopt]
    exact zero_le _
  · rw [htoAdopt]
    exact nofun
  · rw [hstable]
  · rw [hstable]

section

variable (htrailing : pipe.Trailing tree env depth queue root)
include htrailing

/-- A better tip may wait at the end, if it is a hop away. -/
theorem Trailing.concat (hagree : pipe.Agree tree) {height : ℕ} (hroom : pipe.toAdopt.length < queue)
    (hhop : Ancestry.Hop tree.Child blockHeight depth pipe.validateBlock.current tip)
    (htip : tree.Ancestor root tip) (hancestor : tree.Ancestor root ledger.stable.tip)
    (hdeep : ledger.stable.tip = root ∨
      ledger.stable.tip.blockHeight + env.consensusSecurityParam ≤ st.current.blockHeight) :
    Trailing tree env depth queue root { pipe with
      ledger
      validateBlock := st
      toAdopt := pipe.toAdopt ++ [⟨tip, height⟩] } := by
  refine ⟨htrailing.recorded, ?_, ?_, fun msg hmem ↦ ?_, hancestor, hdeep⟩
  · rw [map_append, ← cons_append]
    refine List.isChain_append.2 ⟨htrailing.hops, .singleton _, fun p hp q hq ↦ ?_⟩
    obtain rfl := Option.some.inj (hagree.getLast?_eq.symm.trans hp)
    cases hq
    exact hhop
  · rw [length_append, length_singleton]
    exact hroom
  · rcases mem_append.1 hmem with hmem | hmem
    · exact htrailing.descends msg hmem
    · rw [mem_singleton.1 hmem]
      exact htip

/-- The tip of the ledger store after a block is handled. -/
theorem Trailing.stable_of_handle (hlive : pipe.Live tree env) (hmsg : pipe.Handed tree msg)
    (hshallow : pipe.Shallow env depth queue msg)
    (h : ValidateBlock.handle env pipe.store pipe.ledger pipe.validateBlock msg = .ok (ledger, st, signals))
    (hbetter : tree.Better pipe.validateBlock.current msg.tip) (hcurrent : st.current = msg.tip) :
    tree.Ancestor root ledger.stable.tip ∧ (ledger.stable.tip = root ∨
      ledger.stable.tip.blockHeight + env.consensusSecurityParam ≤ st.current.blockHeight) := by
  rw [hcurrent]
  obtain htip | ⟨hfirst, -, hdeep, -⟩ := (mem_writes_of_handle h).symm.elim
    (hlive.tip_of_mem_writes hmsg hshallow) fun hstable ↦ .inl (congrArg Store.tip hstable)
  · rw [htip]
    exact ⟨htrailing.root_ancestor,
      htrailing.deep.imp_right fun hdeep ↦ hdeep.trans (hbetter.height_le hlive.has_current)⟩
  · exact ⟨htrailing.root_ancestor.trans hfirst, .inr hdeep⟩

theorem Trailing.validate (hlive : pipe.Live tree env) (hagree : pipe.Agree tree)
    (hmsg : pipe.Handed tree msg) (hshallow : pipe.Shallow env depth queue msg)
    (h : pipe.validate env msg = .ok (pipe', signals)) :
    pipe'.Trailing tree env depth queue root := by
  obtain ⟨⟨ledger, st, signals'⟩, hhandle, h⟩ := Except.bind_eq_ok_iff.1 h
  cases h
  have hroot := htrailing.root_ancestor
  cases (hlive.moved hmsg hhandle).1 with
  | stayed hchain hcurrent hadoptions =>
    have htip : ledger.stable.tip = pipe.ledger.stable.tip := (cons.inj hchain).1
    simp only [hadoptions, append_nil]
    refine { htrailing with root_ancestor := ?_, deep := ?_ }
    · change tree.Ancestor root ledger.stable.tip
      rw [htip]
      exact hroot
    · change ledger.stable.tip = root ∨ ledger.stable.tip.blockHeight + _ ≤ st.current.blockHeight
      rw [htip, hcurrent]
      exact htrailing.deep
  | extended hchild hchain hcurrent hadoptions =>
    simp only [hadoptions]
    obtain ⟨hancestor, hdeep⟩ :=
      htrailing.stable_of_handle hlive hmsg hshallow hhandle hchild.better hcurrent
    exact htrailing.concat hagree hshallow.room (.of_child tree.ranked_child tree.leftUnique_child _ hchild)
      ((hroot.trans hlive.stable_ancestor_current).tail hchild) hancestor hdeep
  | switched hasks hfork hroll hswitch hchain hcurrent hadoptions =>
    simp only [hadoptions]
    obtain ⟨hancestor, hdeep⟩ := htrailing.stable_of_handle hlive hmsg hshallow hhandle
      (hlive.better_of_isBetter hmsg hasks.isBetter_eq) hcurrent
    refine htrailing.concat hagree hshallow.room
      (hlive.hop_of_switch hshallow hasks hfork hroll (length_of_completed hroll hswitch))
      ((hroot.trans (hlive.stable_ancestor hroll)).trans
        (ancestor_getLast hfork.isChain hfork.getLast?_eq)) hancestor hdeep
  | switchedPartly hasks hfork _ hswitch =>
    exact absurd rfl (not_partiallyApplied_of_calm hlive.wellFormed hlive.length_le
      hfork.follows (hshallow.calmFork _ _ hasks) hswitch _ _)

end

/-- The best tip so far is not the origin, so that its header is loaded. -/
theorem exists_of_loadCurrentBest {st : AdoptChain} (hstore : s.Within tree)
    (hhas : tree.Has st.currentBestTip) (h : st.loadCurrentBest s = .ok currentBest) :
    ∃ best, currentBest = some best ∧ s.loadHeader best.hash = some best ∧
      best.point = st.currentBestTip := by
  obtain ⟨header, hheader, hpoint⟩ := hhas
  rw [loadCurrentBest] at h
  split_ifs at h with horigin
  · rw [horigin] at hheader
    cases tree.header_origin.symm.trans hheader
  split at h
  swap
  · cases h
  rename_i best hload
  have hsame := hstore.header_eq hload
  rw [hheader] at hsame
  cases hsame
  refine ⟨header, (Except.ok.inj h).symm, ?_, hpoint⟩
  rw [hstore.hash_eq hload]
  exact hload

section

variable (htrailing : pipe.Trailing tree env depth queue root) (hagree : pipe.Agree tree)
  (hwithin : pipe.store.Within tree) {msg : AdoptChainMsg}
include htrailing hagree hwithin

theorem Trailing.of_adoptBest (htoAdopt : pipe.toAdopt = msg :: toAdopt) {incoming adopted}
    (hincoming : pipe.store.loadHeader msg.tip.hash = some incoming)
    (hbest : (pipe.adoptChain.seen msg).loadCurrentBest pipe.store = .ok currentBest)
    (h : adoptBest pipe.store incoming currentBest = .ok adopted) :
    adopted.Within tree ∧ adopted.Recorded tree root ∧ adopted.bestChainTip = msg.tip := by
  have hhas : tree.Has msg.tip := by
    have hchain := hagree.isChain
    rw [htoAdopt, map_cons] at hchain
    exact hchain.rel.1
  have hpoint : incoming.point = msg.tip := by
    obtain ⟨header, hheader, heq⟩ := hhas
    rw [hwithin.header_eq hincoming] at hheader
    rw [Option.some.inj hheader, heq]
  have hload : pipe.store.loadHeader incoming.hash = some incoming := by
    rw [hwithin.hash_eq hincoming]
    exact hincoming
  have hdescends := htrailing.descends msg (by rw [htoAdopt]; exact mem_cons_self ..)
  obtain ⟨best, rfl, hloadBest, hbestPoint⟩ := exists_of_loadCurrentBest hwithin hagree.has hbest
  obtain ⟨bestChain, bestChainTip, heq⟩ := exists_of_adoptBest h
  refine ⟨hwithin.congr (by rw [heq]) (by rw [heq]), ?_, (bestChainTip_of_adoptBest hload h).trans hpoint⟩
  exact htrailing.recorded.adoptBest hwithin hload hloadBest
    (hbestPoint.trans hagree.bestChainTip_eq.symm) (hpoint ▸ hdescends) h

/-- The chain store after each write that adopting the next tip makes. -/
theorem Trailing.of_mem_writes (htoAdopt : pipe.toAdopt = msg :: toAdopt)
    (h : cs ∈ AdoptChain.writes pipe.store pipe.adoptChain msg) :
    cs.Within tree ∧ cs.Recorded tree root ∧ cs.bestChainTip = msg.tip := by
  rw [AdoptChain.writes] at h
  split_ifs at h
  · cases h
  split at h
  · cases h
  rename_i incoming hincoming
  split at h
  · cases h
  rename_i currentBest hbest
  split_ifs at h
  · split at h
    · cases h
    · rename_i adopted hadopt
      have hadopted := htrailing.of_adoptBest hagree hwithin htoAdopt hincoming hbest hadopt
      rcases mem_cons.1 h with rfl | h
      · exact hadopted
      rw [mem_singleton.1 h]
      refine ⟨?_, hadopted.2.1.dragAnchorForward _ _, ?_⟩ <;>
        obtain ⟨anchor, hanchor⟩ := exists_of_dragAnchorForward adopted msg.tip
          pipe.adoptChain.consensusSecurityParam <;> rw [hanchor]
      · exact hadopted.1.congr rfl rfl
      · exact hadopted.2.2
  · cases h

theorem Trailing.adopt (h : pipe.adopt = .ok pipe') : pipe'.Trailing tree env depth queue root := by
  obtain ⟨rfl, -⟩ | ⟨msg, toAdopt, s, st, sent, htoAdopt, hhandle, rfl⟩ :=
    exists_of_adopt h
  · exact htrailing
  have hbetter : tree.Better pipe.adoptChain.currentBestTip msg.tip := by
    have hchain := hagree.isChain
    rw [htoAdopt, map_cons] at hchain
    exact hchain.rel
  have hhops := htrailing.hops
  have hlength := htrailing.length_le
  rw [htoAdopt, map_cons] at hhops
  rw [htoAdopt, length_cons] at hlength
  cases handled_of_handle hhandle with
  | shorter hshorter => exact absurd hshorter (not_lt.2 (hbetter.height_le hagree.has))
  | notBetter hincoming hbest hnot =>
    rw [loadCurrentBest_eq hwithin hbest, ← hwithin.header_eq hincoming] at hnot
    exact absurd hbetter.2 hnot
  | @adopted _ _ adopted _ hincoming hbest _ hadopt _ =>
    obtain ⟨-, hrecorded, -⟩ := htrailing.of_adoptBest hagree hwithin htoAdopt hincoming hbest hadopt
    refine ⟨hrecorded.dragAnchorForward _ _, hhops.tail, le_of_succ_le hlength,
      fun waiting hmem ↦ htrailing.descends waiting ?_, htrailing.root_ancestor, htrailing.deep⟩
    rw [htoAdopt]
    exact mem_cons_of_mem _ hmem

end

/-- All that holds of a run of a ledger that is not empty. -/
structure Tracked (tree : HeaderTree) (env : Environment Body) (depth queue : ℕ) (root : Point)
    (pipe : Pipeline Body) : Prop where
  live : pipe.Live tree env
  agree : pipe.Agree tree
  trailing : pipe.Trailing tree env depth queue root

theorem Tracked.adopt (h : pipe.Tracked tree env depth queue root)
    (hadopt : pipe.adopt = .ok pipe') : pipe'.Tracked tree env depth queue root :=
  ⟨h.live.adopt hadopt, h.agree.adopt h.live.within hadopt, h.trailing.adopt h.agree h.live.within hadopt⟩

theorem Tracked.grow (h : pipe.Tracked tree env depth queue root)
    (hgrows : pipe.store.Grows s) (hstore : s.Within tree) :
    Tracked tree env depth queue root { pipe with store := s } :=
  ⟨h.live.grow hgrows hstore, h.agree.grow hgrows, { h.trailing with
    recorded := h.trailing.recorded.congr hgrows.bestChain_eq hgrows.bestChainTip_eq }⟩

/-- **In every state of a shallow run the tips that wait are hops away from the best chain.** -/
theorem Reachable.tracked (h : Reachable tree env (Shallow env depth queue) pipe) :
    (∃ root, pipe.Tracked tree env depth queue root) ∨ pipe.Idle tree := by
  induction h with
  | start hdisk h =>
    exact (live_or_idle_of_start hdisk h).imp_left fun hlive ↦
      ⟨_, hlive, agree_of_start hdisk h hlive, trailing_of_start hdisk h hlive⟩
  | validate _ hmsg hshallow h ih =>
    exact ih.imp (fun ⟨root, htracked⟩ ↦ ⟨root, htracked.live.validate hmsg h,
      htracked.agree.validate htracked.live hmsg hshallow.calmFork h,
      htracked.trailing.validate htracked.live htracked.agree hmsg hshallow h⟩)
      (fun hidle ↦ hidle.validate h)
  | adopt _ h ih =>
    exact ih.imp (fun ⟨root, htracked⟩ ↦ ⟨root, htracked.adopt h⟩) (fun hidle ↦ hidle.adopt h)
  | grow _ hgrows hstore ih =>
    exact ih.imp (fun ⟨root, htracked⟩ ↦ ⟨root, htracked.grow hgrows hstore⟩)
      (fun hidle ↦ hidle.grow hgrows hstore)

/-! ### Crashes -/

theorem meanwhile_keeps (h : Relation.ReflTransGen (Meanwhile tree) pipe pipe') :
    pipe'.ledger = pipe.ledger ∧ pipe'.validateBlock = pipe.validateBlock ∧
      pipe'.toAdopt.length ≤ pipe.toAdopt.length := by
  induction h with
  | refl => exact ⟨rfl, rfl, le_rfl⟩
  | tail _ hstep ih =>
    obtain ⟨hledger, hvalidate, hlength⟩ := ih
    cases hstep with
    | adopt h =>
      obtain ⟨rfl, -⟩ | ⟨msg, toAdopt, s, st, sent, htoAdopt, -, rfl⟩ := exists_of_adopt h
      · exact ⟨hledger, hvalidate, hlength⟩
      · rw [htoAdopt, length_cons] at hlength
        exact ⟨hledger, hvalidate, le_of_succ_le hlength⟩
    | grow => exact ⟨hledger, hvalidate, hlength⟩

theorem meanwhile_invariant {P : Pipeline Body → Prop}
    (hadopt : ∀ {pipe pipe' : Pipeline Body}, P pipe → pipe.adopt = .ok pipe' → P pipe')
    (hgrow : ∀ {pipe : Pipeline Body} {s : ChainStore Body}, P pipe →
      pipe.store.Grows s → s.Within tree → P { pipe with store := s })
    (h : P pipe) (hmeanwhile : Relation.ReflTransGen (Meanwhile tree) pipe pipe') :
    P pipe' := by
  induction hmeanwhile with
  | refl => exact h
  | tail _ hstep ih =>
    cases hstep with
    | adopt h => exact hadopt ih h
    | grow hgrows hstore => exact hgrow ih hgrows hstore

/-- The best chain of the chain store that a crash leaves is a few hops away from the current tip. -/
theorem Trailing.exists_hops (htrailing : pipe.Trailing tree env depth queue root)
    (hagree : pipe.Agree tree) (hwithin : pipe.store.Within tree)
    (h : pipe.ChainOnDisk cs) :
    cs.Within tree ∧ cs.Recorded tree root ∧ ∃ hops : List Point,
      hops.length ≤ pipe.toAdopt.length ∧
      List.IsChain (Ancestry.Hop tree.Child blockHeight depth) (cs.bestChainTip :: hops) ∧
      (cs.bestChainTip :: hops).getLast? = some pipe.validateBlock.current := by
  rcases h with rfl | ⟨msg, toAdopt, htoAdopt, hmem⟩
  · refine ⟨hwithin, htrailing.recorded, pipe.toAdopt.map AdoptChainMsg.tip, (length_map _).le, ?_, ?_⟩
    · rw [hagree.bestChainTip_eq]
      exact htrailing.hops
    · rw [hagree.bestChainTip_eq]
      exact hagree.getLast?_eq
  · obtain ⟨hwithin', hrecorded, htip⟩ := htrailing.of_mem_writes hagree hwithin htoAdopt hmem
    have hhops := htrailing.hops
    have hlast := hagree.getLast?_eq
    rw [htoAdopt, map_cons] at hhops hlast
    refine ⟨hwithin', hrecorded, toAdopt.map AdoptChainMsg.tip, ?_, ?_, ?_⟩
    · rw [length_map, htoAdopt]
      exact le_succ _
    · rw [htip]
      exact hhops.tail
    · rw [htip]
      exact hlast

/-- **The tip of the ledger store is on the best chain**, wherever a crash comes. -/
theorem Tracked.isOnBestChain (hbound : depth + queue ≤ env.consensusSecurityParam)
    (h : pipe.Tracked tree env depth queue root)
    (hledger : pipe.LedgerOnDisk tree env (Shallow env depth queue) stable)
    (hrecorded : cs.Recorded tree root) {hops} (hlength : hops.length ≤ pipe.toAdopt.length)
    (hhops : List.IsChain (Ancestry.Hop tree.Child blockHeight depth) (cs.bestChainTip :: hops))
    (hlast : (cs.bestChainTip :: hops).getLast? = some pipe.validateBlock.current) :
    cs.isOnBestChain stable.tip = true ∧ tree.Has stable.tip := by
  have hroot := h.trailing.root_ancestor
  have hqueue := h.trailing.length_le
  have hhas : tree.Has root := hrecorded.has.of_ancestor hrecorded.root_ancestor
  -- the tip before the block is handled
  have hbefore : cs.isOnBestChain pipe.ledger.stable.tip = true := by
    rcases h.trailing.deep with heq | hdeep
    · rw [heq]
      exact hrecorded.isOnBestChain .refl hrecorded.root_ancestor
    · exact hrecorded.isOnBestChain hroot (ancestor_of_hops hhops hlast
        h.live.stable_ancestor_current (by omega)).1
  rcases hledger with rfl | ⟨msg, hmsg, hshallow, hmem⟩
  · exact ⟨hbefore, hhas.of_descendant hroot⟩
  rcases h.live.tip_of_mem_writes hmsg hshallow hmem with heq | ⟨hfirst, hdescends, hdeep, hhop⟩
  · rw [heq]
    exact ⟨hbefore, hhas.of_descendant hroot⟩
  refine ⟨hrecorded.isOnBestChain (hroot.trans hfirst) ?_, hhas.of_descendant (hroot.trans hfirst)⟩
  have hroom := hshallow.room
  have hhops' : List.IsChain (Ancestry.Hop tree.Child blockHeight depth)
      ((cs.bestChainTip :: hops) ++ [msg.tip]) := by
    refine List.isChain_append.2 ⟨hhops, .singleton _, fun p hp q hq ↦ ?_⟩
    obtain rfl := Option.some.inj (hlast.symm.trans hp)
    cases hq
    exact hhop
  have hlast' : ((cs.bestChainTip :: hops) ++ [msg.tip]).getLast? = some msg.tip :=
    getLast?_concat
  refine (ancestor_of_hops hhops' hlast' hdescends ?_).1
  change _ + _ + (hops ++ [msg.tip]).length ≤ _
  rw [length_append, length_singleton]
  omega

theorem Idle.tip_of_ledgerOnDisk (hidle : pipe.Idle tree)
    {condition : Pipeline Body → ValidateBlockMsg → Prop}
    (h : pipe.LedgerOnDisk tree env condition stable) : stable.tip = .origin := by
  rcases h with rfl | ⟨msg, -, -, hmem⟩
  · exact (cons.inj hidle.chain_eq).1
  · obtain ⟨horigin, ⟨block, hasks, -⟩ | ⟨fork, blocks, hasks, -⟩⟩ := writes_cases hmem
    · exact absurd (hasks.parent_eq.trans hidle.current_eq) horigin
    · exact absurd hasks.forkTo_eq (hidle.forkTo_ne_ok _ _)

/-- **A crash leaves stores to start from**: the tip of the ledger store is on the best chain, so that the
pair is accepted and realigned, if the depth of the forks and the number of tips that wait to be adopted
do not add up to more than the security parameter. -/
theorem crash_leaves_consistent_stores (hbound : depth + queue ≤ env.consensusSecurityParam)
    (h : OnDisk tree env (Shallow env depth queue) stable cs) :
    cs.isOnBestChain stable.tip = true ∧ cs.ensureStoreConsistency stable.tip = .ok () ∧
      (∃ realigned, cs.realignChainStoreTo stable.tip .all = .ok realigned) ∧
      Disk tree stable cs := by
  obtain ⟨pipe, pipe', hreachable, hledger, hmeanwhile, hchain⟩ := h
  have hconsistent : cs.isOnBestChain stable.tip = true →
      cs.ensureStoreConsistency stable.tip = .ok () := by
    intro hon
    rw [ensureStoreConsistency, hon, Bool.or_true, if_pos rfl]
  rcases hreachable.tracked with ⟨root, htracked⟩ | hidle
  · obtain ⟨-, hvalidate, hwaiting⟩ := meanwhile_keeps hmeanwhile
    have htracked' := meanwhile_invariant Tracked.adopt Tracked.grow htracked hmeanwhile
    obtain ⟨hwithin, hrecorded, hops, hlength, hhops, hlast⟩ :=
      htracked'.trailing.exists_hops htracked'.agree htracked'.live.within hchain
    rw [hvalidate] at hlast
    obtain ⟨hon, hhas⟩ := htracked.isOnBestChain hbound hledger hrecorded (hlength.trans hwaiting) hhops hlast
    refine ⟨hon, hconsistent hon, exists_realignChainStoreTo _ (hconsistent hon) (.inr ?_),
      hwithin, .inr hhas, fun horigin ↦ ?_⟩
    · obtain ⟨q, hget, hhash⟩ := (isOnBestChain_iff hhas).1 hon
      rw [hget]
      exact decide_eq_true hhash
    · obtain ⟨header, hheader, -⟩ := hrecorded.has
      rw [horigin, tree.header_origin] at hheader
      cases hheader
  · have htip := hidle.tip_of_ledgerOnDisk hledger
    have hidle' := meanwhile_invariant Idle.adopt Idle.grow hidle hmeanwhile
    obtain rfl : cs = pipe'.store := by
      rcases hchain with rfl | ⟨msg, toAdopt, htoAdopt, -⟩
      · rfl
      · rw [hidle'.toAdopt_eq] at htoAdopt
        cases htoAdopt
    have hon : pipe'.store.isOnBestChain stable.tip = true := by rw [htip]; rfl
    refine ⟨hon, hconsistent hon, exists_realignChainStoreTo _ (hconsistent hon) (.inl ?_),
      hidle'.within, .inl htip, fun _ ↦ hidle'.hash_eq⟩
    rw [hidle'.bestChainTip_eq]
    rfl

/-! ### A fork as deep as the window -/

/-- A condition that is enough for a shallow run, where it can be evaluated. -/
def isShallow (env : Environment Body) (depth queue : ℕ) (pipe : Pipeline Body)
    (msg : ValidateBlockMsg) : Bool :=
  decide (pipe.toAdopt.length < queue) && (match ValidateBlock.forkTo pipe.store pipe.ledger.tip msg.tip with
    | .error _ => true
    | .ok (fork, blocks) =>
      decide (pipe.validateBlock.current.blockHeight ≤ fork.blockHeight + depth) &&
      match pipe.ledger.rollbackTo fork with
      | .error _ => true
      | .ok (_, base) => isCalm env base.volatile blocks) &&
    match pipe.store.loadBlock msg.tip.hash with
    | none => true
    | some block => isCalm env pipe.ledger.volatile [block]

theorem shallow_of_isShallow (h : isShallow env depth queue pipe msg = true) :
    pipe.Shallow env depth queue msg := by
  rw [isShallow, and_eq_true, and_eq_true, decide_eq_true_iff] at h
  obtain ⟨⟨hroom, hfork⟩, hblock⟩ := h
  refine ⟨hroom, fun fork blocks hasks ↦ ?_,
    fun fork blocks hasks guard base hroll ↦ ?_, fun block hasks ↦ ?_⟩
  · simp only [hasks.forkTo_eq, and_eq_true, decide_eq_true_iff] at hfork
    exact hfork.1
  · simp only [hasks.forkTo_eq, hroll, and_eq_true] at hfork
    exact calm_of_isCalm hfork.2
  · simp only [hasks.loadBlock_eq] at hblock
    exact calm_of_isCalm hblock

theorem Shallow.mono {depth' : ℕ} (h : pipe.Shallow env depth queue msg) (hle : depth ≤ depth') :
    pipe.Shallow env depth' queue msg :=
  { h with depth_le := fun _ _ hasks ↦ (h.depth_le _ _ hasks).trans (Nat.add_le_add_left hle _) }

/-- Two blocks after slot 32, a fork of three at slot 32, and one of two after the first block. -/
def twoForks : ChainStore Bool :=
  storeWith (pointAt 32 10)
    [(headerAt 32 10 none, true), (headerAt 33 11 (some 32), true), (headerAt 34 12 (some 33), true),
      (headerAt 35 11 (some 32), true), (headerAt 36 12 (some 35), true),
      (headerAt 37 13 (some 36), true), (headerAt 38 12 (some 33), true),
      (headerAt 39 13 (some 38), true)]

theorem disk_twoForks : Disk (ofMap twoForks.headers (by decide +kernel)) stableAt32 twoForks :=
  ⟨within_ofMap (by decide +kernel), .inr ⟨headerAt 32 10 none, rfl, rfl⟩, fun h ↦ absurd h (by decide)⟩

/-- The node after the two blocks, each of which is adopted before the next is handled. -/
def afterTwoBlocks : Except Termination (Pipeline Bool) := do
  let started ← (start tenSlots ⟨false, false, false⟩ stableAt32 thirdEpochSnapshots
    twoForks).mapError fun _ ↦ .recoverInconsistent
  let first ← started.validateAll tenSlots [⟨pointAt 33 11, pointAt 32 10, 11⟩]
  let first ← first.adoptAll
  let second ← first.validateAll tenSlots [⟨pointAt 34 12, pointAt 33 11, 12⟩]
  second.adoptAll

theorem reachable_afterTwoBlocks {pipe} (h : afterTwoBlocks = .ok pipe) :
    Reachable (ofMap twoForks.headers (by decide +kernel)) tenSlots (Shallow tenSlots depth 1) pipe := by
  have hshallow (pipe : Pipeline Bool) (msg : ValidateBlockMsg) (h : isShallow tenSlots 0 1 pipe msg = true) :
      pipe.Shallow tenSlots depth 1 msg :=
    (shallow_of_isShallow h).mono (zero_le _)
  have hstarted : Reachable _ tenSlots (Shallow tenSlots depth 1) _ :=
    .start disk_twoForks (rfl : start _ ⟨false, false, false⟩ _ thirdEpochSnapshots _ = _)
  cases h
  exact (((hstarted.validateAll hshallow (rfl : passAll _ _ _ [⟨pointAt 33 11, pointAt 32 10, 11⟩] = _)
    rfl).adoptAll rfl).validateAll hshallow (rfl : passAll _ _ _ [⟨pointAt 34 12, pointAt 33 11, 12⟩] = _)
    rfl).adoptAll rfl

/-- What may be written while a fork is handled after the two blocks, all but the last of which are
skipped. -/
theorem exists_onDisk_afterTwoBlocks (depth : ℕ) (msgs : List ValidateBlockMsg) (msg : ValidateBlockMsg)
    {pipe skipped} (hrun : afterTwoBlocks = .ok pipe)
    (hpass : passAll tenSlots (isShallow tenSlots depth 1) pipe msgs = true)
    (hskipped : pipe.validateAll tenSlots msgs = .ok skipped)
    (hhanded : isHanded skipped.store msg = true) (hshallow : isShallow tenSlots depth 1 skipped msg = true)
    (hwritten : (skipped.writes tenSlots msg).map Store.tip = [tip]) :
    ∃ tree stable, OnDisk tree tenSlots (Shallow tenSlots depth 1) stable skipped.store ∧
      stable.tip = tip := by
  have hskipped' := (reachable_afterTwoBlocks hrun).validateAll (fun _ _ ↦ shallow_of_isShallow) hpass
    hskipped
  obtain ⟨stable, hmem, htip⟩ := mem_map.1 (hwritten ▸ mem_singleton_self _)
  exact ⟨_, stable, ⟨skipped, skipped, hskipped', .inr ⟨_, handed_of_isHanded hskipped'.within hhanded,
    shallow_of_isShallow hshallow, hmem⟩, .refl, .inl rfl⟩, htip⟩

/-- A fork of depth one is switched to, which has its fork point written; the node stops before the best
chain is switched. -/
theorem crash_leaves_consistent_stores_in_switch :
    ∃ (tree : HeaderTree) (stable : Store) (cs : ChainStore Bool),
      1 + 1 ≤ tenSlots.consensusSecurityParam ∧
      OnDisk tree tenSlots (Shallow tenSlots 1 1) stable cs ∧
      stable.tip = pointAt 33 11 ∧ cs.bestChainTip = pointAt 34 12 ∧
      cs.isOnBestChain stable.tip = true ∧
      cs.ensureStoreConsistency stable.tip = .ok () ∧
      (∃ realigned, cs.realignChainStoreTo stable.tip .all = .ok realigned) ∧
      Disk tree stable cs := by
  obtain ⟨tree, stable, hdisk, htip⟩ := exists_onDisk_afterTwoBlocks 1
    [⟨pointAt 38 12, pointAt 33 11, 12⟩] ⟨pointAt 39 13, pointAt 38 12, 13⟩ rfl rfl rfl rfl rfl rfl
  exact ⟨tree, stable, _, by decide, hdisk, htip, rfl, crash_leaves_consistent_stores (by decide) hdisk⟩

/-- **A fork as deep as the window is too deep.** All its blocks replace the window, and the last one has
the first one written; the best chain of the chain store still is the one that was left. A node that stops
there does not start again. -/
theorem crash_after_deepest_fork :
    ∃ (tree : HeaderTree) (stable : Store) (cs : ChainStore Bool),
      tenSlots.consensusSecurityParam = 2 ∧
      OnDisk tree tenSlots (Shallow tenSlots 2 1) stable cs ∧
      stable.tip = pointAt 35 11 ∧ cs.isOnBestChain stable.tip = false ∧
      cs.ensureStoreConsistency stable.tip = .error (.storePairMismatch (pointAt 35 11) 34) := by
  obtain ⟨tree, stable, hdisk, htip⟩ := exists_onDisk_afterTwoBlocks 2
    [⟨pointAt 35 11, pointAt 32 10, 11⟩, ⟨pointAt 36 12, pointAt 35 11, 12⟩]
    ⟨pointAt 37 13, pointAt 36 12, 13⟩ rfl rfl rfl rfl rfl rfl
  exact ⟨tree, stable, _, rfl, hdisk, htip, (congrArg (isOnBestChain _) htip).trans rfl,
    (congrArg (ensureStoreConsistency _) htip).trans rfl⟩

end Pipeline

end Amaru
