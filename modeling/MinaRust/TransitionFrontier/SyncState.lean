/-
  The chain of blocks that a sync fetches and applies (`transition_frontier_sync_state.rs`,
  `transition_frontier_sync_reducer.rs`).

  Each entry of the chain is asked for from peers, whose attempts are kept in a map, then it
  is there, then it is applied.  An action that is not enabled leaves the chain as it is.
-/
import MinaRust.Lib.Keyed
import MinaRust.Lib.OrdMap
import MinaRust.TransitionFrontier.Block

namespace MinaRust.TransitionFrontier

open List

inductive PeerBlockFetchError where
  | timeout
  | disconnected
  | dataUnavailable
  deriving DecidableEq, Repr

variable {H B : Type} (P : Type) (hashing : Hashing H B)

inductive PeerRpcState where
  | init
  | pending (rpcId : ℕ)
  | error (rpcId : ℕ) (error : PeerBlockFetchError)
  | success (block : BlockWithHash hashing)

structure AppliedBlock where
  block : BlockWithHash hashing
  justEmittedAProof : Bool

inductive SyncBlockState [LinearOrder P] where
  | fetchPending (blockHash : H) (attempts : OrdMap P (PeerRpcState hashing))
  | fetchSuccess (block : BlockWithHash hashing)
  | applyPending (block : BlockWithHash hashing)
  | applyError (block : BlockWithHash hashing) (error : String)
  | applySuccess (block : AppliedBlock hashing)

variable {P hashing}

namespace PeerRpcState

def isFetchInit : PeerRpcState hashing → Bool
  | init => true
  | _ => false

def isError : PeerRpcState hashing → Bool
  | error _ _ => true
  | _ => false

def fetchPendingRpcId : PeerRpcState hashing → Option ℕ
  | pending rpcId => some rpcId
  | _ => none

def successBlock : PeerRpcState hashing → Option (BlockWithHash hashing)
  | success block => some block
  | _ => none

end PeerRpcState

namespace SyncBlockState

variable [LinearOrder P]

def isFetchSuccess : SyncBlockState P hashing → Bool
  | fetchSuccess _ => true
  | _ => false

def isApplyPending : SyncBlockState P hashing → Bool
  | applyPending _ => true
  | _ => false

def isApplyError : SyncBlockState P hashing → Bool
  | applyError _ _ => true
  | _ => false

def isApplySuccess : SyncBlockState P hashing → Bool
  | applySuccess _ => true
  | _ => false

def blockHash : SyncBlockState P hashing → H
  | fetchPending blockHash _ => blockHash
  | fetchSuccess block => block.hash
  | applyPending block => block.hash
  | applyError block _ => block.hash
  | applySuccess block => block.block.hash

def block : SyncBlockState P hashing → Option (BlockWithHash hashing)
  | fetchPending _ _ => none
  | fetchSuccess block => some block
  | applyPending block => some block
  | applyError block _ => some block
  | applySuccess block => some block.block

def appliedBlock : SyncBlockState P hashing → Option (AppliedBlock hashing)
  | applySuccess block => some block
  | _ => none

/-- The hash of a block all of whose attempts, at least one, have failed. -/
def retryHash : SyncBlockState P hashing → Option H
  | fetchPending blockHash attempts =>
    if !attempts.entries.isEmpty && attempts.entries.all (fun e => e.2.isError) then some blockHash else none
  | _ => none

variable (peer : P)

def fetchPendingFromPeerRpcId : SyncBlockState P hashing → Option ℕ
  | fetchPending _ attempts => (attempts.get peer).bind PeerRpcState.fetchPendingRpcId
  | _ => none

def isFetchInitFromPeer : SyncBlockState P hashing → Bool
  | fetchPending _ attempts => (attempts.get peer).any PeerRpcState.isFetchInit
  | _ => false

def isFetchPendingFromPeer (rpcId : ℕ) (s : SyncBlockState P hashing) : Bool :=
  s.fetchPendingFromPeerRpcId peer == some rpcId

def fetchPendingFetchedBlock : SyncBlockState P hashing → Option (BlockWithHash hashing)
  | fetchPending _ attempts => attempts.entries.findSome? fun e => e.2.successBlock
  | _ => none

variable (attempt : PeerRpcState hashing)

def insertAttempt : SyncBlockState P hashing → SyncBlockState P hashing
  | fetchPending blockHash attempts => fetchPending blockHash (attempts.insert peer attempt)
  | s => s

/-- `fetch_pending_from_peer_mut`, with the attempt overwritten where there is one. -/
def setAttempt : SyncBlockState P hashing → SyncBlockState P hashing
  | fetchPending blockHash attempts => fetchPending blockHash (attempts.modify peer fun _ => attempt)
  | s => s

/-! ### Small facts -/

variable (s : SyncBlockState P hashing)

@[simp] theorem blockHash_insertAttempt : (s.insertAttempt peer attempt).blockHash = s.blockHash := by
  cases s <;> rfl

@[simp] theorem blockHash_setAttempt : (s.setAttempt peer attempt).blockHash = s.blockHash := by
  cases s <;> rfl

theorem rpcId_setAttempt_of_done {peer : P} {attempt : PeerRpcState hashing} (done : attempt.fetchPendingRpcId = none)
    (s : SyncBlockState P hashing) (q : P) :
    (s.setAttempt peer attempt).fetchPendingFromPeerRpcId q =
      if q = peer then none else s.fetchPendingFromPeerRpcId q := by
  cases s with
  | fetchPending hash attempts =>
    simp only [setAttempt, fetchPendingFromPeerRpcId, OrdMap.get_modify]
    split
    · cases attempts.get q <;> simp [done]
    · rfl
  | _ => exact (ite_self none).symm

theorem isFetchPendingFromPeer_iff {s : SyncBlockState P hashing} {peer : P} {rpcId : ℕ} :
    s.isFetchPendingFromPeer peer rpcId = true ↔ s.fetchPendingFromPeerRpcId peer = some rpcId := by
  rw [isFetchPendingFromPeer, beq_iff_eq]

end SyncBlockState

/-! ## The chain -/

abbrev SyncChain (P : Type) [LinearOrder P] (hashing : Hashing H B) := List (SyncBlockState P hashing)

namespace SyncChain

variable [DecidableEq H] [LinearOrder P]

variable (chain : SyncChain P hashing)

def blocksFetchNext : Option H :=
  chain.findSome? fun s =>
    match s with
    | .fetchPending blockHash attempts => if attempts.entries.isEmpty then some blockHash else none
    | _ => none

def blocksFetchRetryIter : List H := chain.filterMap SyncBlockState.retryHash

variable (hash : H)

def blockState : Option (SyncBlockState P hashing) :=
  chain.find? fun s => s.blockHash = hash

def updateBlock (f : SyncBlockState P hashing → SyncBlockState P hashing) : SyncChain P hashing :=
  replaceKey SyncBlockState.blockHash hash f chain

variable (peer : P)

def blocksFetchFromPeerPendingRpcIds : List ℕ :=
  chain.filterMap (SyncBlockState.fetchPendingFromPeerRpcId peer)

def blocksApplyPending : Option (BlockWithHash hashing) :=
  (chain.find? SyncBlockState.isApplyPending).bind SyncBlockState.block

/-- The loop of `blocks_apply_next`, with the last applied block seen so far. -/
def applyNextFrom (lastApplied : Option (AppliedBlock hashing)) :
    SyncChain P hashing → Option (BlockWithHash hashing × AppliedBlock hashing)
  | [] => none
  | s :: rest =>
    if s.isApplySuccess then applyNextFrom s.appliedBlock rest
    else if s.isFetchSuccess then do return (← s.block, ← lastApplied)
    else none

def blocksApplyNext : Option (BlockWithHash hashing × AppliedBlock hashing) :=
  applyNextFrom none chain

/-! ### Fetch actions -/

def peerQueryInit : SyncChain P hashing :=
  chain.updateBlock hash (SyncBlockState.insertAttempt peer .init)

def peerQueryRetry : SyncChain P hashing :=
  chain.updateBlock hash (SyncBlockState.insertAttempt peer .init)

variable (rpcId : ℕ)

def peerQueryPending : SyncChain P hashing :=
  if (chain.blockState hash).any (SyncBlockState.isFetchInitFromPeer peer) then
    chain.updateBlock hash (SyncBlockState.setAttempt peer (.pending rpcId))
  else chain

/-- The error is written over the first attempt at the peer that is pending, whatever
    its rpc id. -/
def peerQueryError (error : PeerBlockFetchError) : SyncChain P hashing :=
  if chain.any (SyncBlockState.isFetchPendingFromPeer peer rpcId) then
    chain.replaceF fun s =>
      if (s.fetchPendingFromPeerRpcId peer).isSome then some (s.setAttempt peer (.error rpcId error)) else none
  else chain

def peerQuerySuccess (response : BlockWithHash hashing) : SyncChain P hashing :=
  if (chain.blockState response.hash).any (SyncBlockState.isFetchPendingFromPeer peer rpcId) then
    chain.updateBlock response.hash (SyncBlockState.setAttempt peer (.success response))
  else chain

def blocksFetchSuccess : SyncChain P hashing :=
  chain.updateBlock hash fun s =>
    match s.fetchPendingFetchedBlock with
    | some block => .fetchSuccess block
    | none => s

/-! ### Apply actions -/

def blocksNextApplyPending : SyncChain P hashing :=
  if chain.blocksApplyNext.any (fun next => next.1.hash = hash) then
    chain.updateBlock hash fun s =>
      match s.block with
      | some block => .applyPending block
      | none => s
  else chain

def blocksNextApplyError (error : String) : SyncChain P hashing :=
  if chain.blocksApplyPending.any (fun block => block.hash = hash) then
    chain.updateBlock hash fun s =>
      match s.block with
      | some block => .applyError block error
      | none => s
  else chain

def blocksNextApplySuccess (justEmittedAProof : Bool) : SyncChain P hashing :=
  if chain.blocksApplyPending.any (fun block => block.hash = hash) then
    chain.updateBlock hash fun s =>
      match s.block with
      | some block => .applySuccess ⟨block, justEmittedAProof⟩
      | none => s
  else chain

end SyncChain

/-! ### Entries with distinct hashes -/

namespace SyncChain

variable [DecidableEq H] [LinearOrder P] {chain : SyncChain P hashing} {b : SyncBlockState P hashing}

theorem updateBlock_eq (distinct : (chain.map SyncBlockState.blockHash).Nodup) (mem : b ∈ chain)
    (f : SyncBlockState P hashing → SyncBlockState P hashing) :
    chain.updateBlock b.blockHash f = chain.map fun c => if c.blockHash = b.blockHash then f b else c := by
  rw [updateBlock, replaceKey_eq_map distinct]
  refine map_congr_left fun c memc => ?_
  split
  · next same => rw [inj_on_of_nodup_map distinct memc mem same]
  · rfl

theorem updateBlock_of_not_mem {hash : H} (absent : ∀ b ∈ chain, b.blockHash ≠ hash)
    (f : SyncBlockState P hashing → SyncBlockState P hashing) : chain.updateBlock hash f = chain :=
  replaceF_of_forall_none fun b mem => if_neg (absent b mem)

theorem exchange_self (distinct : (chain.map SyncBlockState.blockHash).Nodup) (mem : b ∈ chain) :
    (chain.map fun c => if c.blockHash = b.blockHash then b else c) = chain := by
  refine (map_congr_left fun c memc => ?_).trans (map_id chain)
  split
  · next same => exact (inj_on_of_nodup_map distinct memc mem same).symm
  · rfl

theorem blockState_of_mem (distinct : (chain.map SyncBlockState.blockHash).Nodup) (mem : b ∈ chain) :
    chain.blockState b.blockHash = some b :=
  find?_key distinct mem

variable {b' : SyncBlockState P hashing}

theorem mem_exchange {c : SyncBlockState P hashing} (mem : b ∈ chain) :
    c ∈ chain.map (fun c => if c.blockHash = b.blockHash then b' else c) ↔
      c = b' ∨ c ∈ chain ∧ c.blockHash ≠ b.blockHash := by
  rw [mem_map]
  constructor
  · rintro ⟨d, memd, rfl⟩
    split
    · exact .inl rfl
    · next ne => exact .inr ⟨memd, ne⟩
  · rintro (rfl | ⟨memc, ne⟩)
    · exact ⟨b, mem, if_pos rfl⟩
    · exact ⟨c, memc, if_neg ne⟩

theorem blockHash_exchange (same : b'.blockHash = b.blockHash) :
    (chain.map fun c => if c.blockHash = b.blockHash then b' else c).map SyncBlockState.blockHash =
      chain.map SyncBlockState.blockHash := by
  rw [map_map]
  refine map_congr_left fun c _ => ?_
  simp only [Function.comp_apply]
  split
  · next here => rw [same, here]
  · rfl

theorem exchange_exchange {b'' : SyncBlockState P hashing} (same : b'.blockHash = b.blockHash) :
    (chain.map fun c => if c.blockHash = b.blockHash then b' else c).map
      (fun c => if c.blockHash = b'.blockHash then b'' else c) =
      chain.map fun c => if c.blockHash = b.blockHash then b'' else c := by
  rw [map_map]
  refine map_congr_left fun c _ => ?_
  by_cases here : c.blockHash = b.blockHash
  · simp [here, same]
  · simp [here, same]

end SyncChain

/-! ### The next block to apply -/

namespace SyncChain

variable [LinearOrder P] {chain : SyncChain P hashing}

variable {pred : AppliedBlock hashing}

theorem applyNextFrom_eq_some {last : Option (AppliedBlock hashing)} {block : BlockWithHash hashing}
    (h : applyNextFrom last chain = some (block, pred)) :
    ∃ done rest, chain = done ++ .fetchSuccess block :: rest ∧ (∀ s ∈ done, s.isApplySuccess = true) ∧
      (done = [] ∧ last = some pred ∨ ∃ before, done = before ++ [.applySuccess pred]) := by
  induction chain generalizing last with
  | nil => cases h
  | cons s chain ih =>
    cases s with
    | applySuccess b =>
      obtain ⟨done, rest, rfl, applied, ends⟩ := ih h
      refine ⟨.applySuccess b :: done, rest, rfl, forall_mem_cons.2 ⟨rfl, applied⟩, .inr ?_⟩
      rcases ends with ⟨rfl, here⟩ | ⟨before, rfl⟩
      · cases here
        exact ⟨[], rfl⟩
      · exact ⟨.applySuccess b :: before, rfl⟩
    | fetchSuccess b =>
      cases last with
      | none => cases h
      | some pred' =>
        cases h
        exact ⟨[], chain, rfl, by simp, .inl ⟨rfl, rfl⟩⟩
    | _ => cases h

theorem applyNextFrom_isSome
    (fetched : ∀ s ∈ chain, s.block.isSome ∧ s.isApplyPending = false ∧ s.isApplyError = false)
    (left : ∃ s ∈ chain, s.isApplySuccess = false) : (applyNextFrom (some pred) chain).isSome := by
  induction chain generalizing pred with
  | nil => simp at left
  | cons s chain ih =>
    rw [forall_mem_cons] at fetched
    cases s with
    | applySuccess b =>
      refine ih fetched.2 ?_
      obtain ⟨t, mem, waits⟩ := left
      rcases mem_cons.1 mem with rfl | mem
      · cases waits
      · exact ⟨t, mem, waits⟩
    | fetchSuccess b => rfl
    | fetchPending => cases fetched.1.1
    | applyPending => cases fetched.1.2.1
    | applyError => cases fetched.1.2.2

end SyncChain

/-! ### Errors -/

namespace SyncChain

variable [LinearOrder P] {chain : SyncChain P hashing} {peer : P} {rpcId : ℕ} {error : PeerBlockFetchError}

theorem any_pending_iff : chain.any (SyncBlockState.isFetchPendingFromPeer peer rpcId) = true ↔
    ∃ s ∈ chain, s.fetchPendingFromPeerRpcId peer = some rpcId := by
  simp [any_eq_true, SyncBlockState.isFetchPendingFromPeer_iff]

theorem peerQueryError_of_unknown (unknown : ∀ s ∈ chain, s.fetchPendingFromPeerRpcId peer ≠ some rpcId) :
    chain.peerQueryError peer rpcId error = chain := by
  have disabled : ¬ chain.any (SyncBlockState.isFetchPendingFromPeer peer rpcId) = true := by
    rw [any_pending_iff]
    rintro ⟨s, mem, here⟩
    exact unknown s mem here
  exact if_neg disabled

variable {s : SyncBlockState P hashing}

theorem peerQueryError_cons_of_none (idle : s.fetchPendingFromPeerRpcId peer = none) :
    peerQueryError (s :: chain) peer rpcId error = s :: peerQueryError chain peer rpcId error := by
  have other : s.isFetchPendingFromPeer peer rpcId = false := by
    rw [SyncBlockState.isFetchPendingFromPeer, idle]
    rfl
  rw [peerQueryError, peerQueryError, any_cons, other, Bool.false_or, replaceF_cons_of_none]
  · split <;> rfl
  · rw [idle]
    rfl

theorem peerQueryError_cons_of_some {first : ℕ} (waits : s.fetchPendingFromPeerRpcId peer = some first)
    (enabled : ∃ t ∈ s :: chain, t.fetchPendingFromPeerRpcId peer = some rpcId) :
    peerQueryError (s :: chain) peer rpcId error = s.setAttempt peer (.error rpcId error) :: chain := by
  rw [peerQueryError, if_pos (any_pending_iff.2 enabled), replaceF_cons_of_some]
  rw [waits]
  rfl

end SyncChain

end MinaRust.TransitionFrontier
