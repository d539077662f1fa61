import Amaru.Consensus.Header
import Amaru.Ledger.State.Chain

/-!
# The chain store

Headers with the verdicts on their blocks, the bodies that were downloaded, and the best chain that was
adopted, as one point per slot. The **anchor** is where walks to the ancestors stop.

The source walks until it meets the anchor, or a header that is not stored. Here a walk is given as
many steps as the slot it starts from, which is enough because **slots decrease from a header to its
parent** (`ancestors_eq_cons`).
-/

namespace Amaru

/-- The chain store. -/
structure ChainStore (Body : Type) where
  headers : SortedMap ℕ Header
  /-- The blocks that were validated, with the verdict. -/
  validity : SortedMap ℕ Bool
  blocks : SortedMap ℕ (Block Body)
  anchor : Point
  /-- The best chain, by slot. -/
  bestChain : SortedMap ℕ Point
  bestChainTip : Point

namespace ChainStore

variable {Body : Type} (store : ChainStore Body)

/-! ### Reading -/

/-- The header with a hash. -/
def loadHeader (hash : ℕ) : Option Header := store.headers.get? hash

/-- The header with a hash, and the verdict on its block. -/
def loadHeaderWithValidity (hash : ℕ) : Option (Header × Option Bool) :=
  (store.loadHeader hash).map (·, store.validity.get? hash)

/-- The point of the header with a hash. -/
def loadPoint (hash : ℕ) : Option Point :=
  if hash = originHash then some .origin else (store.loadHeader hash).map Header.point

/-- The body of a block. -/
def loadBlock (hash : ℕ) : Option (Block Body) := store.blocks.get? hash

/-- Whether the body of a block is there. -/
def hasBlock (hash : ℕ) : Bool := store.blocks.contains hash

/-- The headers that name a parent. -/
def getChildren (hash : ℕ) : List ℕ :=
  (store.headers.entries.filter fun (_, header) ↦ header.parent.getD originHash = hash).map Prod.fst

/-- Whether a point is on the best chain. -/
def isOnBestChain : Point → Bool
  | .origin => true
  | .specific slot hash _ => (store.bestChain.get? slot).any (·.hash = hash)

/-- The point of the best chain after this one. -/
def nextBestChain : Point → Option Point
  | .origin => store.bestChain.values.head?
  | .specific _ hash _ => (store.getChildren hash).findSome? fun child ↦
      match store.loadHeader child with
      | some header => if store.isOnBestChain header.point then some header.point else none
      | none => none

/-- The header and its ancestors, up to and with the first that is not after the anchor. -/
def walk : ℕ → Header → List Header
  | 0, _ => []
  | fuel + 1, header => header :: if header.slot ≤ store.anchor.slotOrDefault then []
    else match header.parent.bind store.loadHeader with
      | some parent => walk fuel parent
      | none => []

/-- The header and its ancestors, up to and with the first that is not after the anchor. -/
def ancestors (header : Header) : List Header := store.walk (header.slot + 1) header

/-- The hashes of the ancestors whose blocks were not validated yet, and the verdict on the block that
comes before. -/
def unvalidatedAncestorHashes (start : ℕ) : List ℕ × Bool :=
  let ancestors := ((store.loadHeader start).map store.ancestors).getD []
  let unvalidated := ancestors.takeWhile fun header ↦ (store.validity.get? header.hash).isNone
  ((unvalidated.map Header.hash).reverse,
    ((ancestors[unvalidated.length]?.bind fun header ↦ store.validity.get? header.hash)).getD true)

/-- Collect the points down to a header with the given hash. -/
def collectBetween (fromSlot fromHash : ℕ) : ℕ → ℕ → List Point → Option (List Point)
  | 0, _, _ => none
  | fuel + 1, current, tips =>
    if current = fromHash then some tips
    else match store.loadHeader current with
      | none => none
      | some header =>
        if header.slot ≤ fromSlot then none
        else match header.parent with
          | none => none
          | some parent => collectBetween fromSlot fromHash fuel parent (header.point :: tips)

/-- The points after one and up to another, if the second descends from the first. -/
def ancestorsBetween (start : Point) (tip : ℕ) : Option (List Point) :=
  store.collectBetween start.slotOrDefault start.hash
    (((store.loadHeader tip).map Header.slot).getD 0 + 2) tip []

/-- Walk down to a point of the best chain. -/
def collectToBestChain : List Header → List Point → Option (Point × List Point)
  | [], _ => none
  | header :: headers, forward =>
    if store.isOnBestChain header.point then
      if forward = [] then none else some (header.point, forward)
    else collectToBestChain headers (header.point :: forward)

/-- How a search for the fork point with the best chain ends. -/
inductive FindAncestorOnBestChainResult
  | startHeaderNotFound
  | notFound
  | found (forkPoint : Point) (forwardPoints : List Point)
deriving DecidableEq, Repr

/-- The fork point with the best chain, and the points from there. -/
def findAncestorOnBestChain (start : ℕ) : FindAncestorOnBestChainResult :=
  match store.loadHeader start with
  | none => .startHeaderNotFound
  | some header => match store.collectToBestChain (store.ancestors header) [] with
    | some (forkPoint, forwardPoints) => .found forkPoint forwardPoints
    | none => .notFound

/-- The newest point of two lists of points from the newest. -/
def commonPoint : List Point → List Point → Option Point
  | _, [] => none
  | points, point :: others => match points.dropWhile (point < ·) with
    | [] => none
    | newest :: older => if newest = point then some point else commonPoint (newest :: older) others

/-- How a search for a common ancestor ends. -/
inductive FindCommonAncestorResult
  | headerNotFound (hash : ℕ)
  | notFound
  | found (point : Point)
deriving DecidableEq, Repr

/-- The newest common ancestor of two headers. -/
def findCommonAncestor (hash hash' : ℕ) : FindCommonAncestorResult :=
  match store.loadHeader hash, store.loadHeader hash' with
  | none, _ => .headerNotFound hash
  | some _, none => .headerNotFound hash'
  | some header, some header' =>
    match commonPoint ((store.ancestors header).map Header.point)
      ((store.ancestors header').map Header.point) with
    | some point => .found point
    | none => .notFound

/-- Walk up the best chain to a height. -/
def climbBestChain (targetHeight : ℕ) : ℕ → Point → Option Point
  | 0, _ => none
  | fuel + 1, point => match store.nextBestChain point with
    | none => none
    | some next => if targetHeight ≤ next.blockHeight then some next
      else climbBestChain targetHeight fuel next

/-- The point of the best chain at a height above the anchor. -/
def findAnchorAtHeight (targetHeight : ℕ) : Option Point :=
  if targetHeight ≤ store.anchor.blockHeight then none
  else store.climbBestChain targetHeight (store.headers.entries.length + 1) store.anchor

/-- Points whose blocks are missing, from the oldest, and the parent of the first. -/
structure MissingBlocks where
  boundary : Point
  missing : List Point
deriving DecidableEq, Repr

/-- How a search for missing blocks ends. -/
inductive MissingBlocksResult
  | found (missing : MissingBlocks)
  | boundaryNotFound
  | startHeaderNotFound
deriving DecidableEq, Repr

/-- Collect the points down to one whose block is there, or to the anchor. -/
def collectMissing (limit : ℕ) : List Header → List Point → MissingBlocksResult
  | [], _ => .boundaryNotFound
  | header :: headers, missing =>
    if store.hasBlock header.hash || header.hash = store.anchor.hash then
      .found { boundary := header.point, missing := missing.take limit }
    else collectMissing limit headers (header.point :: missing)

/-- The oldest missing blocks up to a header. -/
def findMissingBlocks (start limit : ℕ) : MissingBlocksResult :=
  match store.loadHeader start with
  | none => .startHeaderNotFound
  | some header => store.collectMissing limit (store.ancestors header) []

/-- Visit the headers above the anchor that are not on top of an invalid block, and keep the best. Each
is visited once, so that there are enough steps. -/
def searchBestCandidate : ℕ → List ℕ → Option Header → Option (Option Header)
  | _, [], best => some best
  | 0, _ :: _, best => some best
  | fuel + 1, hash :: toVisit, best => match store.loadHeaderWithValidity hash with
    | none => none
    | some (_, some false) => searchBestCandidate fuel toVisit best
    | some (header, _) =>
      searchBestCandidate fuel ((store.getChildren hash).reverse ++ toVisit)
        (if cmpTip (some header) best = .gt then some header else best)

/-- The hash of the best header above the anchor, if no header is missing. -/
def findBestCandidate : Option ℕ :=
  let anchor := store.anchor.hash
  if anchor = originHash then
    (store.searchBestCandidate store.headers.entries.length (store.getChildren anchor).reverse
      none).map fun best ↦ (best.map Header.hash).getD originHash
  else match store.loadHeader anchor with
    | none => none
    | some header => (store.searchBestCandidate store.headers.entries.length [anchor]
        (some header)).map fun best ↦ (best.map Header.hash).getD originHash

/-! ### Writing -/

/-- Record the body of a block. -/
def storeBlock (hash : ℕ) (block : Block Body) : ChainStore Body :=
  { store with blocks := store.blocks.insert hash block }

/-- Move the anchor. -/
def setAnchorPoint (point : Point) : ChainStore Body := { store with anchor := point }

/-- Record the verdict on a block. -/
def setBlockValid (hash : ℕ) (valid : Bool) : ChainStore Body :=
  { store with validity := store.validity.insert hash valid }

/-- Forget the verdict on a block. -/
def removeBlockValid (hash : ℕ) : ChainStore Body :=
  { store with validity := store.validity.erase hash }

/-- A best chain up to a point, and then others. -/
def replaceAfter (bestChain : SortedMap ℕ Point) (forkPoint : Point) (forwardPoints : List Point) :
    SortedMap ℕ Point :=
  forwardPoints.foldl (fun chain point ↦ chain.insert point.slotOrDefault point)
    (bestChain.filter fun slot _ ↦ decide (slot ≤ forkPoint.slotOrDefault))

/-- Replace the best chain after a point of it. -/
def switchToFork (forkPoint : Point) (forwardPoints : List Point) : Option (ChainStore Body) :=
  if (store.bestChain.get? forkPoint.slotOrDefault).any (·.hash = forkPoint.hash) then
    some { store with
      bestChain := replaceAfter store.bestChain forkPoint forwardPoints
      bestChainTip := forwardPoints.getLast?.getD forkPoint }
  else none

/-- Add a point to the best chain. -/
def rollForwardChain (point : Point) : ChainStore Body :=
  { store with
    bestChain := store.bestChain.insert point.slotOrDefault point
    bestChainTip := point }

end ChainStore

/-! ### Starting -/

/-- Why the node does not start. -/
inductive NodeStartError
  | storePairMismatch (ledgerTip : Point) (bestChain : ℕ)
  | forkPointNotOnBestChain
  | ledgerTipNotFound
  | unknownPoint
  | ledger (error : StateError)

/-- Which verdicts to forget. -/
inductive ClearValidity
  | validOnly
  | all
deriving DecidableEq, Repr

namespace ChainStore

variable {Body : Type} (store : ChainStore Body) {tip : Point}

/-- Refuse a ledger whose tip is not on the best chain. -/
def ensureStoreConsistency (ledgerTip : Point) : Except NodeStartError Unit :=
  if store.bestChainTip.hash = originHash || store.isOnBestChain ledgerTip then .ok ()
  else .error (.storePairMismatch ledgerTip store.bestChainTip.hash)

/-- Whether a verdict is to be forgotten. -/
def shouldClear : ClearValidity → Option Bool → Bool
  | .validOnly, some true => true
  | .all, some _ => true
  | _, _ => false

/-- Forget verdicts on the blocks to visit and their descendants. Each is visited once, so that there
are enough steps. -/
def clearValidationAfter (clear : ClearValidity) : ℕ → List ℕ → ChainStore Body → ChainStore Body
  | _, [], store => store
  | 0, _ :: _, store => store
  | fuel + 1, hash :: toVisit, store => match store.loadHeaderWithValidity hash with
    | none => clearValidationAfter clear fuel toVisit store
    | some (_, validity) =>
      clearValidationAfter clear fuel ((store.getChildren hash).reverse ++ toVisit)
        (if shouldClear clear validity then store.removeBlockValid hash else store)

/-- Forget verdicts on the blocks after a point. -/
def clearValidationAfterTip (tip : Point) (clear : ClearValidity) : ChainStore Body :=
  clearValidationAfter clear store.headers.entries.length (store.getChildren tip.hash).reverse store

/-- Make the best chain and the anchor end at the tip of the ledger. -/
def realignChainStoreTo (tip : Point) (clear : ClearValidity) : Except NodeStartError (ChainStore Body) := do
  store.ensureStoreConsistency tip
  let anchored := (store.setAnchorPoint tip).setBlockValid tip.hash true
  let realigned ← if store.bestChainTip.hash = originHash then .ok (anchored.rollForwardChain tip)
    else match anchored.switchToFork tip [] with
      | some realigned => .ok realigned
      | none => .error .forkPointNotOnBestChain
  return realigned.clearValidationAfterTip tip clear

/-- **Realigning succeeds** if the best chain is empty or has the tip. -/
theorem exists_realignChainStoreTo {store : ChainStore Body} (clear : ClearValidity)
    (hconsistent : store.ensureStoreConsistency tip = .ok ())
    (h : store.bestChainTip.hash = originHash ∨
      (store.bestChain.get? tip.slotOrDefault).any (·.hash = tip.hash) = true) :
    ∃ store', store.realignChainStoreTo tip clear = .ok store' := by
  rw [realignChainStoreTo, hconsistent]
  by_cases horigin : store.bestChainTip.hash = originHash
  · exact ⟨_, if_pos horigin⟩
  have hswitch : ((store.setAnchorPoint tip).setBlockValid tip.hash true).switchToFork tip [] = some _ :=
    if_pos (h.resolve_left horigin)
  dsimp only
  rw [hswitch]
  exact ⟨_, if_neg horigin⟩

theorem exists_of_clearValidationAfter (clear : ClearValidity) (fuel : ℕ) (toVisit : List ℕ)
    (store : ChainStore Body) :
    ∃ validity, clearValidationAfter clear fuel toVisit store = { store with validity } := by
  induction fuel generalizing toVisit store with
  | zero => cases toVisit <;> exact ⟨_, rfl⟩
  | succ fuel ih =>
    rcases toVisit with - | ⟨hash, toVisit⟩
    · exact ⟨_, rfl⟩
    rw [clearValidationAfter]
    split
    · exact ih toVisit store
    · split_ifs
      · exact ih _ _
      · exact ih _ _

/-- **What realigning changes**: the best chain and the anchor end at the tip, and verdicts are
forgotten. -/
theorem exists_of_realignChainStoreTo {store store' : ChainStore Body}
    {clear : ClearValidity} (h : store.realignChainStoreTo tip clear = .ok store') :
    ∃ validity bestChain, store' = { store with
        validity, bestChain, anchor := tip, bestChainTip := tip } ∧
      (store.bestChainTip.hash = originHash ∧ bestChain = store.bestChain.insert tip.slotOrDefault tip ∨
        (store.bestChain.get? tip.slotOrDefault).any (·.hash = tip.hash) = true ∧
          bestChain = store.bestChain.filter fun slot _ ↦ decide (slot ≤ tip.slotOrDefault)) := by
  obtain ⟨-, -, h⟩ := Except.bind_eq_ok_iff.1 h
  dsimp only at h
  split_ifs at h with horigin
  · cases h
    obtain ⟨validity, hclear⟩ := exists_of_clearValidationAfter clear _ _ _
    exact ⟨validity, _, hclear, .inl ⟨horigin, rfl⟩⟩
  rw [switchToFork] at h
  split_ifs at h with hany
  · cases h
    obtain ⟨validity, hclear⟩ := exists_of_clearValidationAfter clear _ _ _
    exact ⟨validity, _, hclear, .inr ⟨hany, rfl⟩⟩
  · cases h

end ChainStore

end Amaru
