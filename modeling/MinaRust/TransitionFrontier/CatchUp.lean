/-
  Catching up with a best tip (`transition_frontier_sync_reducer.rs`).

  The chain of a sync starts when the root ledger is there (`BlocksPending`) or from the
  node's own best chain.  A `BestTipUpdate` builds it anew: an entry is taken from the old
  chain, else from the applied best chain, else from the blocks of the update.
-/
import MinaRust.Lib.Checked
import MinaRust.TransitionFrontier.SyncState

set_option linter.unusedSectionVars false

namespace MinaRust.TransitionFrontier

open List SyncBlockState OrdMap

variable {H B P : Type} [LinearOrder P] {hashing : Hashing H B}

/-- A root, the hashes between, and a tip, each the predecessor of the next. -/
structure SyncTarget (hashing : Hashing H B) where
  bestTip : BlockWithHash hashing
  rootBlock : BlockWithHash hashing
  blocksInbetween : List H
  linked : (rootBlock.hash :: (blocksInbetween ++ [bestTip.hash])).IsChain hashing.IsPred

/-- The ledger of the first of the `rootBlockUpdates` was reconstructed, of the root itself when
    there are none. -/
structure RootLedgerSuccess (hashing : Hashing H B) where
  bestTip : BlockWithHash hashing
  rootBlock : BlockWithHash hashing
  blocksInbetween : List H
  rootBlockUpdates : List (BlockWithHash hashing)
  linked : (rootBlockUpdates.map BlockWithHash.hash ++
    rootBlock.hash :: (blocksInbetween ++ [bestTip.hash])).IsChain hashing.IsPred

def AppliedBlock.hash (b : AppliedBlock hashing) : H := b.block.hash

variable [DecidableEq H]

/-! ## The start of a chain -/

/-- The blocks between: those of the best chain are applied, the others missing. -/
def inbetweenStates (appliedBlocks : List (AppliedBlock hashing)) : List H → SyncChain P hashing
  | [] => []
  | blockHash :: rest =>
    match lastWith AppliedBlock.hash blockHash appliedBlocks with
    | some block => .applySuccess block :: inbetweenStates (without AppliedBlock.hash blockHash appliedBlocks) rest
    | none => .fetchPending blockHash empty :: inbetweenStates appliedBlocks rest

/-- The reconstructed root is applied, the roots after it are there. -/
def RootLedgerSuccess.rootStates (s : RootLedgerSuccess hashing) : SyncChain P hashing :=
  match s.rootBlockUpdates with
  | reconstructedRootBlock :: updates =>
    .applySuccess ⟨reconstructedRootBlock, false⟩ :: (updates ++ [s.rootBlock]).map .fetchSuccess
  | [] => [.applySuccess ⟨s.rootBlock, false⟩]

def RootLedgerSuccess.blocksPending (s : RootLedgerSuccess hashing) (bestChain : List (AppliedBlock hashing)) :
    SyncChain P hashing :=
  s.rootStates ++ (inbetweenStates bestChain s.blocksInbetween ++ [.fetchSuccess s.bestTip])

/-- `BestTipUpdate` of a synced node whose best chain has the new root. -/
def SyncTarget.syncedUpdate (t : SyncTarget hashing) (bestChain : List (AppliedBlock hashing)) : SyncChain P hashing :=
  (t.rootBlock.hash :: (t.blocksInbetween ++ [t.bestTip.hash])).map fun hash =>
    match lastWith AppliedBlock.hash hash bestChain with
    | some block => .applySuccess block
    | none => if hash = t.bestTip.hash then .fetchSuccess t.bestTip else .fetchPending hash empty

/-! ## A new target -/

structure Sources (P : Type) [LinearOrder P] (hashing : Hashing H B) where
  oldBlockStates : SyncChain P hashing
  appliedBlocks : List (AppliedBlock hashing)

def pushBlock (src : Sources P hashing) (hash : H) (maybeBlock : Option (BlockWithHash hashing)) :
    SyncBlockState P hashing × Sources P hashing :=
  let rest := { src with oldBlockStates := without blockHash hash src.oldBlockStates }
  match (lastWith blockHash hash src.oldBlockStates).filter
      (fun oldState => oldState.block.isSome || maybeBlock.isNone) with
  | some oldState => (oldState, rest)
  | none =>
    match lastWith AppliedBlock.hash hash src.appliedBlocks with
    | some block => (.applySuccess block, { rest with appliedBlocks := without AppliedBlock.hash hash src.appliedBlocks })
    | none =>
      match maybeBlock with
      | some block => (.fetchSuccess block, rest)
      | none => (.fetchPending hash empty, rest)

def pushBlocks : Sources P hashing → List (H × Option (BlockWithHash hashing)) → SyncChain P hashing
  | _, [] => []
  | src, (hash, maybeBlock) :: rest => (pushBlock src hash maybeBlock).1 :: pushBlocks (pushBlock src hash maybeBlock).2 rest

def SyncTarget.pushes (t : SyncTarget hashing) : List (H × Option (BlockWithHash hashing)) :=
  (t.rootBlock.hash, some t.rootBlock) ::
    (t.blocksInbetween.map (fun hash => (hash, none)) ++ [(t.bestTip.hash, some t.bestTip)])

inductive LedgerNeeded where
  | mk
  deriving DecidableEq, Repr

namespace SyncChain

def bestTipUpdate (chain : SyncChain P hashing) (bestChain : List (AppliedBlock hashing)) (t : SyncTarget hashing) :
    Except LedgerNeeded (SyncChain P hashing) :=
  let oldChainHasNewRootApplied := (chain.blockState t.rootBlock.hash).any isApplySuccess
  if (lastWith AppliedBlock.hash t.rootBlock.hash bestChain).isSome || oldChainHasNewRootApplied then
    .ok (pushBlocks ⟨chain, bestChain⟩ t.pushes)
  else .error .mk

end SyncChain

inductive CatchUpEvent (P : Type) (hashing : Hashing H B) where
  | bestTipUpdate (t : SyncTarget hashing)
  | peerQueryInit (hash : H) (peer : P)
  | peerQueryRetry (hash : H) (peer : P)
  | peerQueryPending (hash : H) (peer : P) (rpcId : ℕ)
  | peerQueryError (peer : P) (rpcId : ℕ) (error : PeerBlockFetchError)
  | peerQuerySuccess (peer : P) (rpcId : ℕ) (response : BlockWithHash hashing)
  | blocksFetchSuccess (hash : H)
  | blocksNextApplyPending (hash : H)
  | blocksNextApplyError (hash : H) (error : String)
  | blocksNextApplySuccess (hash : H) (justEmittedAProof : Bool)

namespace SyncChain

def catchUpStep (bestChain : List (AppliedBlock hashing)) (chain : SyncChain P hashing) :
    CatchUpEvent P hashing → Except LedgerNeeded (SyncChain P hashing)
  | .bestTipUpdate t => chain.bestTipUpdate bestChain t
  | .peerQueryInit hash peer =>
    .ok (if chain.blocksFetchNext = some hash then chain.peerQueryInit hash peer else chain)
  | .peerQueryRetry hash peer =>
    .ok (if chain.blocksFetchRetryIter.head? = some hash then chain.peerQueryRetry hash peer else chain)
  | .peerQueryPending hash peer rpcId => .ok (chain.peerQueryPending hash peer rpcId)
  | .peerQueryError peer rpcId error => .ok (chain.peerQueryError peer rpcId error)
  | .peerQuerySuccess peer rpcId response => .ok (chain.peerQuerySuccess peer rpcId response)
  | .blocksFetchSuccess hash => .ok (chain.blocksFetchSuccess hash)
  | .blocksNextApplyPending hash => .ok (chain.blocksNextApplyPending hash)
  | .blocksNextApplyError hash error => .ok (chain.blocksNextApplyError hash error)
  | .blocksNextApplySuccess hash justEmittedAProof => .ok (chain.blocksNextApplySuccess hash justEmittedAProof)

inductive Start (bestChain : List (AppliedBlock hashing)) : SyncChain P hashing → Prop where
  | rootLedgerSuccess (s : RootLedgerSuccess hashing) : Start bestChain (s.blocksPending bestChain)
  | synced (t : SyncTarget hashing) (applied : (lastWith AppliedBlock.hash t.rootBlock.hash bestChain).isSome) :
      Start bestChain (t.syncedUpdate bestChain)

/-! ## What is wanted of the chain -/

structure Healthy (chain : SyncChain P hashing) : Prop where
  distinct : (chain.map blockHash).Nodup
  one_pending : chain.countP isApplyPending ≤ 1
  parent : ∀ block pred, chain.blocksApplyNext = some (block, pred) → pred.hash = block.predHash
  live : (∀ s ∈ chain, s.block.isSome ∧ s.isApplyPending = false ∧ s.isApplyError = false) →
    (∃ s ∈ chain, s.isApplySuccess = false) → chain.blocksApplyNext.isSome

end SyncChain

/-- The block is applied in the old chain, or only the best chain has it. -/
def IsApplied (chain : SyncChain P hashing) (bestChain : List (AppliedBlock hashing)) (hash : H) : Prop :=
  (∃ s ∈ chain, s.blockHash = hash ∧ s.isApplySuccess = true) ∨
    (∀ s ∈ chain, s.blockHash ≠ hash) ∧ ∃ b ∈ bestChain, b.hash = hash

/-- The new root is applied where the old chain has it, and so are all blocks before one that is
    being applied. -/
structure SyncTarget.Calm (t : SyncTarget hashing) (chain : SyncChain P hashing)
    (bestChain : List (AppliedBlock hashing)) : Prop where
  root : ∀ s ∈ chain, s.blockHash = t.rootBlock.hash → s.block.isSome → s.isApplySuccess = true
  before : (t.blocksInbetween ++ [t.bestTip.hash]).Pairwise fun g h =>
    (∃ s ∈ chain, s.blockHash = h ∧ s.isApplyPending = true) → IsApplied chain bestChain g

def SyncChain.CalmEvent (bestChain : List (AppliedBlock hashing)) (chain : SyncChain P hashing) :
    CatchUpEvent P hashing → Prop
  | .bestTipUpdate t => t.Calm chain bestChain
  | _ => True

/-! ## The invariant -/

/-- A successful attempt brought the block that was asked for. -/
def SyncBlockState.Right : SyncBlockState P hashing → Prop
  | .fetchPending hash attempts => ∀ peer block, attempts.get peer = some (.success block) → block.hash = hash
  | _ => True

def SyncBlockState.view (s : SyncBlockState P hashing) : H × Bool × Bool :=
  (s.blockHash, s.isApplySuccess, s.isApplyPending)

def Hashing.Acyclic (hashing : Hashing H B) : Prop := ∀ h, ¬ Relation.TransGen hashing.IsPred h h

namespace SyncChain

structure Ready (chain : SyncChain P hashing) : Prop where
  linked : (chain.map blockHash).IsChain hashing.IsPred
  right : ∀ s ∈ chain, s.Right
  based : ∃ s rest, chain = s :: rest ∧ s.isApplySuccess = true
  ordered : chain.Pairwise fun s t => t.isApplyPending = true → s.isApplySuccess = true

end SyncChain

theorem nodup_of_linked (acyclic : hashing.Acyclic) {hashes : List H} (linked : hashes.IsChain hashing.IsPred) :
    hashes.Nodup := by
  have ancestors : hashes.Pairwise (Relation.TransGen hashing.IsPred) :=
    (linked.imp fun _ _ => Relation.TransGen.single).pairwise
  refine ancestors.imp fun {g h} above => ?_
  rintro rfl
  exact acyclic g above

namespace SyncChain

variable {chain : SyncChain P hashing}

theorem Ready.exclusive (ready : chain.Ready) :
    chain.Pairwise fun s t => ¬ (s.isApplyPending = true ∧ t.isApplyPending = true) := by
  refine ready.ordered.imp fun {s t} applied => ?_
  rintro ⟨pends, pendt⟩
  have applies := applied pendt
  cases s with
  | applyPending => cases applies
  | _ => cases pends

theorem Ready.pending_unique (ready : chain.Ready) {s t : SyncBlockState P hashing} (mems : s ∈ chain) (memt : t ∈ chain)
    (pends : s.isApplyPending = true) (pendt : t.isApplyPending = true) : s = t := by
  by_contra ne
  have symmetric : Std.Symm fun s t : SyncBlockState P hashing =>
      ¬ (s.isApplyPending = true ∧ t.isApplyPending = true) := ⟨fun _ _ other both => other both.symm⟩
  exact ready.exclusive.forall mems memt ne ⟨pends, pendt⟩

theorem Ready.one_pending (ready : chain.Ready) : chain.countP isApplyPending ≤ 1 := by
  rw [countP_eq_length_filter]
  have pending : ∀ s ∈ chain.filter isApplyPending, s.isApplyPending = true :=
    fun s mem => (mem_filter.1 mem).2
  have exclusive := ready.exclusive.filter isApplyPending
  match listed : chain.filter isApplyPending with
  | [] => simp
  | [_] => simp
  | s :: t :: rest =>
    rw [listed] at pending exclusive
    rw [pairwise_cons] at exclusive
    exact absurd ⟨pending s (by simp), pending t (by simp)⟩ (exclusive.1 t (by simp))

theorem Ready.healthy (acyclic : hashing.Acyclic) (ready : chain.Ready) : chain.Healthy where
  distinct := nodup_of_linked acyclic ready.linked
  one_pending := ready.one_pending
  parent block pred next := by
    obtain ⟨done, rest, rfl, -, ⟨-, none⟩ | ⟨before, rfl⟩⟩ := applyNextFrom_eq_some next
    · cases none
    · -- the block stands right after the applied one
      have linked := ready.linked
      rw [append_assoc, map_append] at linked
      have pair := (isChain_append.1 linked).2.1
      exact (isChain_cons_cons.1 pair).1.unique block.isPred
  live fetched left := by
    obtain ⟨s, rest, rfl, applied⟩ := ready.based
    rw [forall_mem_cons] at fetched
    cases s with
    | applySuccess b =>
      refine applyNextFrom_isSome fetched.2 ?_
      obtain ⟨t, mem, waits⟩ := left
      rcases mem_cons.1 mem with rfl | mem
      · cases waits
      · exact ⟨t, mem, waits⟩
    | _ => cases applied

/-! ## Fetch actions -/

end SyncChain

namespace SyncBlockState

variable {s : SyncBlockState P hashing}

theorem right_insertAttempt (right : s.Right) (peer : P) :
    (s.insertAttempt peer .init).Right ∧ (s.insertAttempt peer .init).view = s.view := by
  cases s with
  | fetchPending hash attempts =>
    refine ⟨fun q block got => ?_, rfl⟩
    rw [get_insert] at got
    split at got
    · cases got
    · exact right q block got
  | _ => exact ⟨trivial, rfl⟩

theorem right_setAttempt (right : s.Right) (peer : P) {attempt : PeerRpcState hashing}
    (asked : ∀ block, attempt = .success block → block.hash = s.blockHash) :
    (s.setAttempt peer attempt).Right ∧ (s.setAttempt peer attempt).view = s.view := by
  cases s with
  | fetchPending hash attempts =>
    refine ⟨fun q block got => ?_, rfl⟩
    rw [get_modify] at got
    split at got
    · obtain ⟨_, -, is⟩ := Option.map_eq_some_iff.1 got
      exact asked block is
    · exact right q block got
  | _ => exact ⟨trivial, rfl⟩

theorem right_fetchedBlock (right : s.Right) {block : BlockWithHash hashing}
    (fetched : s.fetchPendingFetchedBlock = some block) :
    (fetchSuccess block : SyncBlockState P hashing).view = s.view := by
  cases s with
  | fetchPending hash attempts =>
    obtain ⟨⟨peer, attempt⟩, mem, success⟩ := List.exists_of_findSome?_eq_some fetched
    cases attempt with
    | success block' =>
      cases success
      simp only [view, blockHash, right peer block (get_eq_some.2 mem)]
      rfl
    | _ => cases success
  | _ => cases fetched

end SyncBlockState

namespace SyncChain

variable {chain : SyncChain P hashing}

theorem Ready.of_view {chain' : SyncChain P hashing} (ready : chain.Ready) (right : ∀ s ∈ chain', s.Right)
    (same : chain'.map view = chain.map view) : chain'.Ready := by
  have hashes : chain'.map blockHash = chain.map blockHash := by
    have firsts := congrArg (List.map Prod.fst) same
    rwa [map_map, map_map] at firsts
  refine ⟨hashes ▸ ready.linked, right, ?_, ?_⟩
  · obtain ⟨s, rest, rfl, applied⟩ := ready.based
    cases chain' with
    | nil => cases same
    | cons s' rest' =>
      simp only [map_cons, List.cons.injEq, view, Prod.mk.injEq] at same
      exact ⟨s', rest', rfl, same.1.2.1.trans applied⟩
  · have ordered : (chain.map view).Pairwise fun x y => y.2.2 = true → x.2.1 = true :=
      pairwise_map.2 ready.ordered
    rw [← same] at ordered
    exact pairwise_map.1 ordered

theorem Ready.replaceF (ready : chain.Ready) {f : SyncBlockState P hashing → Option (SyncBlockState P hashing)}
    (keeps : ∀ s s', s.Right → f s = some s' → s'.Right ∧ s'.view = s.view) : Ready (chain.replaceF f) := by
  have steps : List.Forall₂ (fun s s' => s.Right → s'.Right ∧ s'.view = s.view) chain (chain.replaceF f) :=
    forall₂_replaceF (fun s right => ⟨right, rfl⟩) (fun s s' changed right => keeps s s' right changed) chain
  have both : ∀ {l l' : SyncChain P hashing},
      List.Forall₂ (fun s s' : SyncBlockState P hashing => s.Right → s'.Right ∧ s'.view = s.view) l l' →
      (∀ s ∈ l, s.Right) → (∀ s ∈ l', s.Right) ∧ l'.map view = l.map view := by
    intro l l' steps
    induction steps with
    | nil => exact fun _ => ⟨by simp, rfl⟩
    | cons step _ ih =>
      intro right
      rw [forall_mem_cons] at right
      obtain ⟨right', same⟩ := step right.1
      obtain ⟨rights, sames⟩ := ih right.2
      exact ⟨forall_mem_cons.2 ⟨right', rights⟩, by rw [map_cons, map_cons, same, sames]⟩
  obtain ⟨right, same⟩ := both steps ready.right
  exact ready.of_view right same

theorem Ready.updateBlock (ready : chain.Ready) {hash : H} {f : SyncBlockState P hashing → SyncBlockState P hashing}
    (keeps : ∀ s, s.Right → s.blockHash = hash → (f s).Right ∧ (f s).view = s.view) :
    (chain.updateBlock hash f).Ready := by
  refine ready.replaceF fun s s' right changed => ?_
  simp only [Option.ite_none_right_eq_some, Option.some.injEq] at changed
  obtain ⟨here, rfl⟩ := changed
  exact keeps s right here

theorem Ready.blocksFetchSuccess (ready : chain.Ready) (hash : H) : (chain.blocksFetchSuccess hash).Ready := by
  refine ready.updateBlock fun s right _ => ?_
  split
  · next block fetched => exact ⟨trivial, right_fetchedBlock right fetched⟩
  · exact ⟨right, rfl⟩

theorem Ready.peerQueryPending (ready : chain.Ready) (hash : H) (peer : P) (rpcId : ℕ) :
    (chain.peerQueryPending hash peer rpcId).Ready := by
  rw [SyncChain.peerQueryPending]
  split
  · exact ready.updateBlock fun s right _ => right_setAttempt right peer nofun
  · exact ready

theorem Ready.peerQueryError (ready : chain.Ready) (peer : P) (rpcId : ℕ) (error : PeerBlockFetchError) :
    (chain.peerQueryError peer rpcId error).Ready := by
  rw [SyncChain.peerQueryError]
  split
  · refine ready.replaceF fun s s' right changed => ?_
    simp only [Option.ite_none_right_eq_some, Option.some.injEq] at changed
    obtain ⟨-, rfl⟩ := changed
    exact right_setAttempt right peer (by rintro _ ⟨⟩)
  · exact ready

theorem Ready.peerQuerySuccess (ready : chain.Ready) (peer : P) (rpcId : ℕ) (response : BlockWithHash hashing) :
    (chain.peerQuerySuccess peer rpcId response).Ready := by
  rw [SyncChain.peerQuerySuccess]
  split
  · refine ready.updateBlock fun s right here => right_setAttempt right peer ?_
    rintro block ⟨⟩
    exact here.symm
  · exact ready

/-! ## Apply actions -/

variable {block : BlockWithHash hashing}

theorem Ready.start_apply {done rest : SyncChain P hashing}
    (ready : Ready (done ++ .fetchSuccess block :: rest)) (applied : ∀ s ∈ done, s.isApplySuccess = true)
    (some_done : done ≠ []) : Ready (done ++ .applyPending block :: rest) := by
  obtain ⟨ordered, orderedRest, -⟩ := pairwise_append.1 ready.ordered
  rw [pairwise_cons] at orderedRest
  refine ⟨?_, fun s mem => ?_, ?_, pairwise_append.2 ⟨ordered, ?_, fun s mem _ _ _ => applied s mem⟩⟩
  · have linked := ready.linked
    rwa [map_append] at linked ⊢
  · rcases mem_append.1 mem with mem | mem
    · exact ready.right s (mem_append_left _ mem)
    · rcases mem_cons.1 mem with rfl | mem
      · trivial
      · exact ready.right s (mem_append_right _ (mem_cons_of_mem _ mem))
  · cases done with
    | nil => exact absurd rfl some_done
    | cons s done => exact ⟨s, done ++ .applyPending block :: rest, rfl, applied s mem_cons_self⟩
  · -- nothing after a block that was not applied is being applied
    refine pairwise_cons.2 ⟨fun t mem pending => ?_, orderedRest.2⟩
    cases orderedRest.1 t mem pending

theorem Ready.blocksNextApplyPending (acyclic : hashing.Acyclic) (ready : chain.Ready) (hash : H) :
    (chain.blocksNextApplyPending hash).Ready := by
  rw [SyncChain.blocksNextApplyPending]
  split
  · next enabled =>
    cases next : chain.blocksApplyNext with
    | none =>
      rw [next] at enabled
      cases enabled
    | some found =>
      obtain ⟨block, pred⟩ := found
      rw [next, Option.any_some, decide_eq_true_eq] at enabled
      subst enabled
      obtain ⟨done, rest, rfl, applied, ⟨-, none⟩ | ⟨before, isDone⟩⟩ := applyNextFrom_eq_some next
      · cases none
      have distinct := nodup_of_linked acyclic ready.linked
      rw [map_append, map_cons, nodup_append] at distinct
      have others : ∀ s ∈ done, s.blockHash ≠ (SyncBlockState.fetchSuccess block : SyncBlockState P hashing).blockHash :=
        fun s mem => distinct.2.2 _ (mem_map_of_mem mem) _ mem_cons_self
      refine Eq.mpr (congrArg Ready (replaceKey_append_cons others _)) ?_
      exact ready.start_apply applied (by simp [isDone])
  · exact ready

theorem mem_of_blocksApplyPending (pending : chain.blocksApplyPending = some block) :
    .applyPending block ∈ chain := by
  obtain ⟨s, found, is⟩ := Option.bind_eq_some_iff.1 pending
  have mem := List.mem_of_find?_eq_some found
  have pends := List.find?_some found
  cases s with
  | applyPending b =>
    cases is
    exact mem
  | _ => cases pends

theorem pending_of_enabled {hash : H} (enabled : chain.blocksApplyPending.any (fun block => block.hash = hash) = true) :
    ∃ block, chain.blocksApplyPending = some block ∧ block.hash = hash := by
  cases pending : chain.blocksApplyPending with
  | none =>
    rw [pending] at enabled
    cases enabled
  | some block =>
    rw [pending, Option.any_some, decide_eq_true_eq] at enabled
    exact ⟨block, rfl, enabled⟩

theorem Ready.end_apply (acyclic : hashing.Acyclic) (ready : chain.Ready) (mem : .applyPending block ∈ chain)
    (f : SyncBlockState P hashing → SyncBlockState P hashing)
    (same : (f (.applyPending block)).blockHash = block.hash) (right : (f (.applyPending block)).Right)
    (ended : (f (.applyPending block)).isApplyPending = false) : (chain.updateBlock block.hash f).Ready := by
  have distinct := nodup_of_linked acyclic ready.linked
  have update := updateBlock_eq distinct mem f
  rw [blockHash] at update
  rw [update]
  have none_pending : ∀ t ∈ chain.map (fun c => if c.blockHash = block.hash then f (.applyPending block) else c),
      t.isApplyPending = false := by
    intro t memt
    rcases (mem_exchange mem).1 memt with rfl | ⟨memt, other⟩
    · exact ended
    · rw [← Bool.not_eq_true]
      intro pending
      exact other (congrArg _ (ready.pending_unique memt mem pending rfl))
  refine ⟨?_, fun t memt => ?_, ?_, ?_⟩
  · have hashes : (chain.map fun c => if c.blockHash = block.hash then f (.applyPending block) else c).map
        blockHash = chain.map blockHash :=
      blockHash_exchange (b := .applyPending block) same
    rw [hashes]
    exact ready.linked
  · rcases (mem_exchange mem).1 memt with rfl | ⟨memt, -⟩
    · exact right
    · exact ready.right t memt
  · obtain ⟨first, rest, rfl, applied⟩ := ready.based
    refine ⟨first, _, (map_cons ..).trans (congrArg (· :: _) (if_neg fun here => ?_)), applied⟩
    rw [inj_on_of_nodup_map distinct mem_cons_self mem here] at applied
    cases applied
  · refine pairwise_of_forall_mem_list fun a _ b memb pending => ?_
    cases (none_pending b memb).symm.trans pending

theorem Ready.blocksNextApplyError (acyclic : hashing.Acyclic) (ready : chain.Ready) (hash : H) (error : String) :
    (chain.blocksNextApplyError hash error).Ready := by
  rw [SyncChain.blocksNextApplyError]
  split
  · next enabled =>
    obtain ⟨block, pending, rfl⟩ := pending_of_enabled enabled
    exact ready.end_apply acyclic (mem_of_blocksApplyPending pending) _ rfl trivial rfl
  · exact ready

theorem Ready.blocksNextApplySuccess (acyclic : hashing.Acyclic) (ready : chain.Ready) (hash : H)
    (justEmittedAProof : Bool) : (chain.blocksNextApplySuccess hash justEmittedAProof).Ready := by
  rw [SyncChain.blocksNextApplySuccess]
  split
  · next enabled =>
    obtain ⟨block, pending, rfl⟩ := pending_of_enabled enabled
    exact ready.end_apply acyclic (mem_of_blocksApplyPending pending) _ rfl trivial rfl
  · exact ready

end SyncChain

/-! ## The start -/

variable {chain : SyncChain P hashing}

theorem SyncChain.Ready.of_idle (linked : (chain.map blockHash).IsChain hashing.IsPred)
    (right : ∀ s ∈ chain, s.Right) (idle : ∀ s ∈ chain, s.isApplyPending = false)
    (based : ∃ s rest, chain = s :: rest ∧ s.isApplySuccess = true) : chain.Ready := by
  refine ⟨linked, right, based, pairwise_of_forall_mem_list fun _ _ t mem pending => ?_⟩
  cases (idle t mem).symm.trans pending

theorem inbetweenStates_spec (hashes : List H) (appliedBlocks : List (AppliedBlock hashing)) :
    (inbetweenStates appliedBlocks hashes : SyncChain P hashing).map blockHash = hashes ∧
    ∀ s ∈ (inbetweenStates appliedBlocks hashes : SyncChain P hashing), s.Right ∧ s.isApplyPending = false := by
  induction hashes generalizing appliedBlocks with
  | nil => exact ⟨rfl, by simp [inbetweenStates]⟩
  | cons hash hashes ih =>
    rw [inbetweenStates]
    split
    · next block found =>
      obtain ⟨same, rest⟩ := ih (without AppliedBlock.hash hash appliedBlocks)
      refine ⟨?_, forall_mem_cons.2 ⟨⟨trivial, rfl⟩, rest⟩⟩
      rw [map_cons, same]
      exact congrArg (· :: hashes) (lastWith_eq_some found).2
    · obtain ⟨same, rest⟩ := ih appliedBlocks
      exact ⟨by rw [map_cons, same]; rfl, forall_mem_cons.2 ⟨⟨nofun, rfl⟩, rest⟩⟩

theorem RootLedgerSuccess.rootStates_spec (s : RootLedgerSuccess hashing) :
    (s.rootStates : SyncChain P hashing).map blockHash =
      s.rootBlockUpdates.map BlockWithHash.hash ++ [s.rootBlock.hash] ∧
    (∀ x ∈ (s.rootStates : SyncChain P hashing), x.Right ∧ x.isApplyPending = false) ∧
    ∃ x rest, (s.rootStates : SyncChain P hashing) = x :: rest ∧ x.isApplySuccess = true := by
  rw [rootStates]
  split
  · next root updates isUpdates =>
    refine ⟨?_, forall_mem_cons.2 ⟨⟨trivial, rfl⟩, ?_⟩, _, _, rfl, rfl⟩
    · rw [isUpdates, map_cons, map_map, map_cons, map_append]
      rfl
    · intro x mem
      obtain ⟨block, -, rfl⟩ := mem_map.1 mem
      exact ⟨trivial, rfl⟩
  · next isUpdates =>
    rw [isUpdates]
    refine ⟨rfl, fun x mem => ?_, _, _, rfl, rfl⟩
    cases mem_singleton.1 mem
    exact ⟨trivial, rfl⟩

theorem RootLedgerSuccess.blocksPending_ready (s : RootLedgerSuccess hashing) (bestChain : List (AppliedBlock hashing)) :
    (s.blocksPending bestChain : SyncChain P hashing).Ready := by
  obtain ⟨inbetween, calm⟩ := inbetweenStates_spec (P := P) s.blocksInbetween bestChain
  obtain ⟨roots, calmRoots, first, rest, isRoots, applied⟩ := s.rootStates_spec (P := P)
  have all : ∀ x ∈ (s.blocksPending bestChain : SyncChain P hashing), x.Right ∧ x.isApplyPending = false := by
    intro x mem
    simp only [blocksPending, mem_append, mem_singleton] at mem
    rcases mem with mem | mem | rfl
    · exact calmRoots x mem
    · exact calm x mem
    · exact ⟨trivial, rfl⟩
  refine .of_idle ?_ (fun x mem => (all x mem).1) (fun x mem => (all x mem).2) ?_
  · rw [blocksPending, map_append, map_append, roots, inbetween, append_assoc]
    exact s.linked
  · exact ⟨first, _, by rw [blocksPending, isRoots, cons_append], applied⟩

variable {bestChain : List (AppliedBlock hashing)}

theorem SyncTarget.syncedUpdate_ready (t : SyncTarget hashing)
    (applied : (lastWith AppliedBlock.hash t.rootBlock.hash bestChain).isSome) :
    (t.syncedUpdate bestChain : SyncChain P hashing).Ready := by
  refine .of_idle ?_ ?_ ?_ ?_
  · rw [syncedUpdate, map_map]
    refine (map_congr_left fun hash _ => ?_).trans (map_id _) ▸ t.linked
    simp only [Function.comp_apply]
    split
    · next block found => exact (lastWith_eq_some found).2
    · split
      · next isTip => exact isTip.symm
      · rfl
  · intro s mem
    obtain ⟨hash, -, rfl⟩ := mem_map.1 mem
    split
    · trivial
    · split
      · trivial
      · exact nofun
  · intro s mem
    obtain ⟨hash, -, rfl⟩ := mem_map.1 mem
    split
    · rfl
    · split <;> rfl
  · obtain ⟨block, found⟩ := Option.isSome_iff_exists.1 applied
    refine ⟨_, _, map_cons .., ?_⟩
    rw [found]
    rfl

/-! ## A new target -/

inductive Pushed (src : Sources P hashing) (hash : H) (maybeBlock : Option (BlockWithHash hashing)) :
    SyncBlockState P hashing → Prop where
  | old (s : SyncBlockState P hashing) (mem : s ∈ src.oldBlockStates) (same : s.blockHash = hash)
      (kept : s.block.isSome ∨ maybeBlock = none) : Pushed src hash maybeBlock s
  | applied (b : AppliedBlock hashing) (same : b.hash = hash) : Pushed src hash maybeBlock (.applySuccess b)
  | fresh (block : BlockWithHash hashing) (given : maybeBlock = some block)
      (absent : lastWith AppliedBlock.hash hash src.appliedBlocks = none)
      (dropped : ∀ s, lastWith blockHash hash src.oldBlockStates = some s → s.block = none) :
      Pushed src hash maybeBlock (.fetchSuccess block)
  | missing (given : maybeBlock = none) (unknown : lastWith blockHash hash src.oldBlockStates = none)
      (absent : lastWith AppliedBlock.hash hash src.appliedBlocks = none) :
      Pushed src hash maybeBlock (.fetchPending hash empty)

theorem pushed (src : Sources P hashing) (hash : H) (maybeBlock : Option (BlockWithHash hashing)) :
    Pushed src hash maybeBlock (pushBlock src hash maybeBlock).1 := by
  unfold pushBlock
  split
  · next oldState found =>
    obtain ⟨found, kept⟩ := Option.filter_eq_some_iff.1 found
    obtain ⟨mem, same⟩ := lastWith_eq_some found
    refine .old oldState mem same ?_
    rwa [Bool.or_eq_true, Option.isNone_iff_eq_none] at kept
  · next dropped =>
    split
    · next block found => exact .applied block (lastWith_eq_some found).2
    · next absent =>
      cases maybeBlock with
      | some block =>
        refine .fresh block rfl absent fun s found => ?_
        have no_block := Option.filter_eq_none_iff.1 dropped s found
        simpa using no_block
      | none =>
        refine .missing rfl (Option.eq_none_iff_forall_ne_some.2 fun s found => ?_) absent
        exact Option.filter_eq_none_iff.1 dropped s found (by simp)

variable {src : Sources P hashing} {hash : H}

theorem pushBlock_congr {src' : Sources P hashing} (maybeBlock : Option (BlockWithHash hashing))
    (old : lastWith blockHash hash src'.oldBlockStates = lastWith blockHash hash src.oldBlockStates)
    (applied : lastWith AppliedBlock.hash hash src'.appliedBlocks = lastWith AppliedBlock.hash hash src.appliedBlocks) :
    (pushBlock src' hash maybeBlock).1 = (pushBlock src hash maybeBlock).1 := by
  unfold pushBlock
  rw [old, applied]
  split
  · rfl
  · split
    · rfl
    · cases maybeBlock <;> rfl

theorem lastWith_pushBlock (src : Sources P hashing) {other : H} (ne : other ≠ hash)
    (maybeBlock : Option (BlockWithHash hashing)) :
    lastWith blockHash other (pushBlock src hash maybeBlock).2.oldBlockStates =
      lastWith blockHash other src.oldBlockStates ∧
    lastWith AppliedBlock.hash other (pushBlock src hash maybeBlock).2.appliedBlocks =
      lastWith AppliedBlock.hash other src.appliedBlocks := by
  unfold pushBlock
  split
  · exact ⟨lastWith_without ne _, rfl⟩
  · split
    · exact ⟨lastWith_without ne _, lastWith_without ne _⟩
    · cases maybeBlock <;> exact ⟨lastWith_without ne _, rfl⟩

theorem pushBlocks_eq_map {src₀ : Sources P hashing} {pushes : List (H × Option (BlockWithHash hashing))}
    (distinct : (pushes.map Prod.fst).Nodup) (src : Sources P hashing)
    (same : ∀ hash ∈ pushes.map Prod.fst, lastWith blockHash hash src.oldBlockStates = lastWith blockHash hash src₀.oldBlockStates ∧ lastWith AppliedBlock.hash hash src.appliedBlocks = lastWith AppliedBlock.hash hash src₀.appliedBlocks) :
    pushBlocks src pushes = pushes.map fun push => (pushBlock src₀ push.1 push.2).1 := by
  induction pushes generalizing src with
  | nil => rfl
  | cons push pushes ih =>
    obtain ⟨hash, maybeBlock⟩ := push
    rw [map_cons, nodup_cons] at distinct
    rw [map_cons, forall_mem_cons] at same
    rw [pushBlocks, map_cons, pushBlock_congr maybeBlock same.1.1 same.1.2, ih distinct.2]
    intro other mem
    have ne : other ≠ hash := fun is => distinct.1 (is ▸ mem)
    obtain ⟨old, applied⟩ := lastWith_pushBlock src ne maybeBlock
    exact ⟨old.trans (same.2 other mem).1, applied.trans (same.2 other mem).2⟩

variable {maybeBlock : Option (BlockWithHash hashing)} {s : SyncBlockState P hashing}

theorem Pushed.blockHash (from_src : Pushed src hash maybeBlock s)
    (given : ∀ block, maybeBlock = some block → block.hash = hash) : s.blockHash = hash := by
  cases from_src with
  | old _ _ same _ | applied _ same => exact same
  | fresh block is _ _ => exact given block is
  | missing => rfl

theorem SyncTarget.map_fst_pushes (t : SyncTarget hashing) :
    t.pushes.map Prod.fst = t.rootBlock.hash :: (t.blocksInbetween ++ [t.bestTip.hash]) := by
  simp [pushes, Function.comp_def]

theorem isApplySuccess_pushBlock (distinct : (chain.map blockHash).Nodup)
    (applied : IsApplied chain bestChain hash) :
    (pushBlock ⟨chain, bestChain⟩ hash none).1.isApplySuccess = true := by
  have from_src := pushed ⟨chain, bestChain⟩ hash none
  generalize (pushBlock ⟨chain, bestChain⟩ hash none).1 = entry at from_src ⊢
  cases from_src with
  | old _ mem same _ =>
    rcases applied with ⟨s, mems, sames, applied⟩ | ⟨absent, -⟩
    · rwa [inj_on_of_nodup_map distinct mem mems (same.trans sames.symm)]
    · exact absurd same (absent _ mem)
  | applied => rfl
  | fresh _ given => cases given
  | missing _ unknown absent =>
    rcases applied with ⟨s, mem, same, -⟩ | ⟨-, b, mem, same⟩
    · exact absurd same (lastWith_eq_none.1 unknown s mem)
    · exact absurd same (lastWith_eq_none.1 absent b mem)

variable {t : SyncTarget hashing}

theorem SyncTarget.Calm.root_applied (calm : t.Calm chain bestChain)
    (distinct : (chain.map blockHash).Nodup)
    (stays : ((lastWith AppliedBlock.hash t.rootBlock.hash bestChain).isSome || (chain.blockState t.rootBlock.hash).any isApplySuccess) = true) :
    (pushBlock ⟨chain, bestChain⟩ t.rootBlock.hash (some t.rootBlock)).1.isApplySuccess = true := by
  have from_src := pushed ⟨chain, bestChain⟩ t.rootBlock.hash (some t.rootBlock)
  generalize (pushBlock ⟨chain, bestChain⟩ t.rootBlock.hash (some t.rootBlock)).1 = entry at from_src ⊢
  cases from_src with
  | old s mem same kept => exact calm.root _ mem same (kept.resolve_right nofun)
  | applied => rfl
  | missing given => cases given
  | fresh _ given absent dropped =>
    -- then the old chain has the root applied, with its block
    rw [absent, Option.isSome_none] at stays
    cases found : chain.blockState t.rootBlock.hash with
    | none =>
      rw [found] at stays
      cases stays
    | some s =>
      rw [found] at stays
      have mem := List.mem_of_find?_eq_some found
      have same : s.blockHash = t.rootBlock.hash := by simpa using List.find?_some found
      cases last : lastWith blockHash t.rootBlock.hash chain with
      | none => exact absurd same (lastWith_eq_none.1 last s mem)
      | some s' =>
        obtain ⟨mem', same'⟩ := lastWith_eq_some last
        have no_block := dropped s' last
        rw [inj_on_of_nodup_map distinct mem' mem (same'.trans same.symm)] at no_block
        cases s with
        | applySuccess => cases no_block
        | _ => cases stays

theorem Pushed.pending {src : Sources P hashing} {hash : H} {maybeBlock : Option (BlockWithHash hashing)}
    {s : SyncBlockState P hashing} (from_src : Pushed src hash maybeBlock s) (pending : s.isApplyPending = true) :
    ∃ s ∈ src.oldBlockStates, s.blockHash = hash ∧ s.isApplyPending = true := by
  cases from_src with
  | old _ mem same _ => exact ⟨s, mem, same, pending⟩
  | _ => cases pending

theorem Pushed.right (from_src : Pushed src hash maybeBlock s) (old : ∀ s ∈ src.oldBlockStates, s.Right) :
    s.Right := by
  cases from_src with
  | old _ mem _ _ => exact old s mem
  | missing => exact nofun
  | _ => trivial

theorem SyncTarget.block_of_push {push : H × Option (BlockWithHash hashing)} (mem : push ∈ t.pushes)
    (block : BlockWithHash hashing) (given : push.2 = some block) : block.hash = push.1 := by
  simp only [pushes, mem_cons, mem_append, mem_map, not_mem_nil, or_false] at mem
  rcases mem with rfl | ⟨hash, -, rfl⟩ | rfl
  · cases given
    rfl
  · cases given
  · cases given
    rfl

theorem SyncChain.Ready.bestTipUpdate {chain' : SyncChain P hashing} (acyclic : hashing.Acyclic)
    (ready : chain.Ready) (calm : t.Calm chain bestChain)
    (update : chain.bestTipUpdate bestChain t = .ok chain') : chain'.Ready := by
  have distinct := nodup_of_linked acyclic ready.linked
  have targets : (t.pushes.map Prod.fst).Nodup := t.map_fst_pushes ▸ nodup_of_linked acyclic t.linked
  unfold SyncChain.bestTipUpdate at update
  dsimp only at update
  split at update
  · next stays =>
    cases update
    rw [pushBlocks_eq_map targets ⟨chain, bestChain⟩ fun _ _ => ⟨rfl, rfl⟩]
    have root := calm.root_applied distinct stays
    refine ⟨?_, fun s mem => ?_, ⟨_, _, map_cons .., root⟩, pairwise_map.2 ?_⟩
    · have hashes : (t.pushes.map fun push => (pushBlock ⟨chain, bestChain⟩ push.1 push.2).1).map
          blockHash = t.pushes.map Prod.fst := by
        rw [map_map]
        exact map_congr_left fun push mem => (pushed ..).blockHash (SyncTarget.block_of_push mem)
      rw [hashes, t.map_fst_pushes]
      exact t.linked
    · obtain ⟨push, -, rfl⟩ := mem_map.1 mem
      exact (pushed _ _ _).right ready.right
    · -- before an entry that is being applied: the root, or a block between
      obtain ⟨inner, -, last⟩ := pairwise_append.1 calm.before
      refine pairwise_cons.2 ⟨fun push _ _ => root, pairwise_append.2 ⟨pairwise_map.2 ?_,
        pairwise_singleton _ _, ?_⟩⟩
      · exact inner.imp fun applied pending =>
          isApplySuccess_pushBlock distinct (applied ((pushed ..).pending pending))
      · intro push mem tip memTip pending
        obtain ⟨hash, memHash, rfl⟩ := mem_map.1 mem
        cases mem_singleton.1 memTip
        exact isApplySuccess_pushBlock distinct
          (last hash memHash _ mem_cons_self ((pushed ..).pending pending))
  · cases update

namespace SyncChain

theorem Ready.of_start (start : Start bestChain chain) : chain.Ready := by
  cases start with
  | rootLedgerSuccess s => exact s.blocksPending_ready bestChain
  | synced t applied => exact t.syncedUpdate_ready applied

/-- **One action** keeps the invariant, an update when it is calm. -/
theorem Ready.step {chain chain' : SyncChain P hashing} {bestChain : List (AppliedBlock hashing)}
    {e : CatchUpEvent P hashing} (acyclic : hashing.Acyclic) (ready : chain.Ready) (calm : chain.CalmEvent bestChain e)
    (step : chain.catchUpStep bestChain e = .ok chain') : chain'.Ready := by
  cases e with
  | bestTipUpdate t => exact ready.bestTipUpdate acyclic calm step
  | peerQueryInit hash peer | peerQueryRetry hash peer =>
    cases step
    split
    · exact ready.updateBlock fun s right _ => right_insertAttempt right peer
    · exact ready
  | peerQueryPending hash peer rpcId =>
    cases step
    exact ready.peerQueryPending hash peer rpcId
  | peerQueryError peer rpcId error =>
    cases step
    exact ready.peerQueryError peer rpcId error
  | peerQuerySuccess peer rpcId response =>
    cases step
    exact ready.peerQuerySuccess peer rpcId response
  | blocksFetchSuccess hash =>
    cases step
    exact ready.blocksFetchSuccess hash
  | blocksNextApplyPending hash =>
    cases step
    exact ready.blocksNextApplyPending acyclic hash
  | blocksNextApplyError hash error =>
    cases step
    exact ready.blocksNextApplyError acyclic hash error
  | blocksNextApplySuccess hash justEmittedAProof =>
    cases step
    exact ready.blocksNextApplySuccess acyclic hash justEmittedAProof

/-- **Catching up** applies blocks on their parents and does not wedge, in every run whose
    updates are calm. -/
theorem catch_up_healthy (acyclic : hashing.Acyclic) {bestChain : List (AppliedBlock hashing)}
    {chain chain' : SyncChain P hashing} (start : Start bestChain chain) {events : List (CatchUpEvent P hashing)}
    (calm : Along (catchUpStep bestChain) (CalmEvent bestChain) chain events)
    (run : events.foldlM (catchUpStep bestChain) chain = .ok chain') : chain'.Healthy :=
  Ready.healthy acyclic (calm.induction (fun ready calm step => Ready.step acyclic ready calm step) (.of_start start) run)

end SyncChain

/-! ## Runs -/

theorem listHashing_acyclic : listHashing.Acyclic := by
  have longer : ∀ g h, Relation.TransGen listHashing.IsPred g h → g.length < h.length := by
    intro g h above
    induction above with
    | single step =>
      obtain ⟨b, is⟩ := step
      cases is
      exact Nat.lt_succ_self _
    | tail _ step ih =>
      obtain ⟨b, is⟩ := step
      cases is
      exact ih.trans (Nat.lt_succ_self _)
  exact fun h above => (longer h h above).false

def shortTarget : SyncTarget listHashing where
  bestTip := listBlock 1 [0]
  rootBlock := listBlock 0 []
  blocksInbetween := []
  linked := by simp [Hashing.IsPred, listHashing, listBlock]

def longTarget : SyncTarget listHashing where
  bestTip := listBlock 2 [1, 0]
  rootBlock := listBlock 0 []
  blocksInbetween := [[1, 0]]
  linked := by simp [Hashing.IsPred, listHashing, listBlock]

namespace SyncChain

/-- A synced node applies a block while its tip moves on. -/
theorem catch_up_healthy_two : ∃ chain : SyncChain ℕ listHashing,
    [CatchUpEvent.blocksNextApplyPending [1, 0], .bestTipUpdate longTarget, .blocksNextApplySuccess [1, 0] false,
      .blocksNextApplyPending [2, 1, 0]].foldlM (catchUpStep [⟨listBlock 0 [], false⟩])
        (shortTarget.syncedUpdate [⟨listBlock 0 [], false⟩]) = .ok chain ∧ chain.Healthy := by
  obtain ⟨chain, run⟩ : ∃ chain : SyncChain ℕ listHashing, [CatchUpEvent.blocksNextApplyPending [1, 0],
    .bestTipUpdate longTarget, .blocksNextApplySuccess [1, 0] false, .blocksNextApplyPending [2, 1, 0]].foldlM
      (catchUpStep [⟨listBlock 0 [], false⟩]) (shortTarget.syncedUpdate [⟨listBlock 0 [], false⟩]) = .ok chain :=
    ⟨_, rfl⟩
  refine ⟨chain, run, catch_up_healthy listHashing_acyclic (.synced shortTarget rfl) ?_ run⟩
  refine ⟨trivial, fun s first => ⟨?_, fun s _ => ⟨trivial, fun s _ => ⟨trivial, fun s _ => trivial⟩⟩⟩⟩
  have is : s = [.applySuccess ⟨listBlock 0 [], false⟩, .applyPending (listBlock 1 [0])] := by
    cases first
    rfl
  subst is
  refine ⟨fun s mem same _ => ?_, ?_⟩
  · rcases mem_cons.1 mem with rfl | mem
    · rfl
    · cases mem_singleton.1 mem
      cases same
  · refine pairwise_cons.2 ⟨fun h memh ⟨s, mem, same, pending⟩ => ?_, pairwise_singleton _ _⟩
    cases mem_singleton.1 memh
    rcases mem_cons.1 mem with rfl | mem
    · cases pending
    · cases mem_singleton.1 mem
      cases same

/-- The root of an update is applied in the best chain and only fetched in the old chain: the
    chain wedges.  And a block before one that is being applied is missing: once it is
    there, two blocks are being applied. -/
theorem catch_up_wedged :
    (∃ (s : RootLedgerSuccess listHashing) (t : SyncTarget listHashing) (chain : SyncChain ℕ listHashing),
      [CatchUpEvent.bestTipUpdate t].foldlM (catchUpStep [⟨listBlock 1 [0], false⟩])
        (s.blocksPending [⟨listBlock 1 [0], false⟩]) = .ok chain ∧ ¬ chain.Healthy) ∧
    ∃ (s : RootLedgerSuccess listHashing) (t : SyncTarget listHashing) (chain : SyncChain ℕ listHashing),
      [CatchUpEvent.blocksNextApplyPending [3, 2, 1, 0], .bestTipUpdate t, .peerQueryInit [1, 0] 7,
        .peerQueryPending [1, 0] 7 0, .peerQuerySuccess 7 0 (listBlock 1 [0]), .blocksFetchSuccess [1, 0],
        .blocksNextApplyPending [1, 0]].foldlM (catchUpStep [⟨listBlock 0 [], false⟩])
        (s.blocksPending [⟨listBlock 0 [], false⟩]) = .ok chain ∧ ¬ chain.Healthy := by
  refine ⟨⟨⟨listBlock 2 [1, 0], listBlock 1 [0], [], [listBlock 0 []], ?_⟩,
    ⟨listBlock 3 [2, 1, 0], listBlock 1 [0], [[2, 1, 0]], ?_⟩, _, rfl, fun healthy => ?_⟩,
    ⟨listBlock 3 [2, 1, 0], listBlock 2 [1, 0], [], [], ?_⟩,
    ⟨listBlock 4 [3, 2, 1, 0], listBlock 0 [], [[1, 0], [2, 1, 0], [3, 2, 1, 0]], ?_⟩, _, rfl, fun healthy => ?_⟩
  · simp [Hashing.IsPred, listHashing, listBlock]
  · simp [Hashing.IsPred, listHashing, listBlock]
  · cases healthy.live (by decide) ⟨_, mem_cons_self, rfl⟩
  · simp [Hashing.IsPred, listHashing, listBlock]
  · simp [Hashing.IsPred, listHashing, listBlock]
  · have count := healthy.one_pending
    revert count
    decide

end SyncChain

end MinaRust.TransitionFrontier
