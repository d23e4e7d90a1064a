/-
  Fetching the blocks of a sync from peers (`transition_frontier_sync_reducer.rs`).

  Attempts are kept by block and peer, while answers and errors come with a peer and an
  rpc id.  Which peers can be asked is left open, so a peer may have several requests
  outstanding.
-/
import MinaRust.Lib.Checked
import MinaRust.TransitionFrontier.SyncState

set_option linter.unusedSectionVars false

namespace MinaRust.TransitionFrontier

open List OrdMap SyncBlockState SyncChain

variable {H B P : Type} [LinearOrder P] {hashing : Hashing H B}

/-! ## Errors -/

namespace SyncBlockState

variable (peer : P) (error : PeerBlockFetchError) (s : SyncBlockState P hashing)

/-- The attempt at the peer has failed, if it was pending. -/
def failFrom : SyncBlockState P hashing :=
  match s.fetchPendingFromPeerRpcId peer with
  | some rpcId => s.setAttempt peer (.error rpcId error)
  | none => s

@[simp] theorem blockHash_failFrom : (s.failFrom peer error).blockHash = s.blockHash := by
  rw [failFrom]
  split
  · exact blockHash_setAttempt ..
  · rfl

theorem rpcId_failFrom (q : P) : (s.failFrom peer error).fetchPendingFromPeerRpcId q =
      if q = peer then none else s.fetchPendingFromPeerRpcId q := by
  rw [failFrom]
  split
  · exact rpcId_setAttempt_of_done rfl s q
  · next idle =>
    split
    · next same => rw [same, idle]
    · rfl

end SyncBlockState

namespace SyncChain

/-- The errors for all rpc ids that are pending when the peer disconnects. -/
def disconnected (chain : SyncChain P hashing) (peer : P) : SyncChain P hashing :=
  (chain.blocksFetchFromPeerPendingRpcIds peer).foldl
    (fun chain rpcId => chain.peerQueryError peer rpcId .disconnected) chain

def failAttempt (chain : SyncChain P hashing) (peer : P) (rpcId : ℕ) (error : PeerBlockFetchError) :
    SyncChain P hashing :=
  chain.map fun s => if s.isFetchPendingFromPeer peer rpcId then s.setAttempt peer (.error rpcId error) else s

/-- The pending attempts at the peer have failed, each with its own rpc id. -/
def failPeer (chain : SyncChain P hashing) (peer : P) (error : PeerBlockFetchError) : SyncChain P hashing :=
  chain.map (SyncBlockState.failFrom peer error)

def firstPending (chain : SyncChain P hashing) (peer : P) : Option ℕ :=
  (chain.blocksFetchFromPeerPendingRpcIds peer).head?

variable {chain : SyncChain P hashing} {peer : P} {rpcId : ℕ} {error : PeerBlockFetchError}

theorem failAttempt_of_unknown (unknown : ∀ s ∈ chain, s.fetchPendingFromPeerRpcId peer ≠ some rpcId) :
    chain.failAttempt peer rpcId error = chain := by
  rw [failAttempt, map_congr_left, map_id]
  intro s mem
  exact if_neg fun here => unknown s mem (isFetchPendingFromPeer_iff.1 here)

variable {s : SyncBlockState P hashing}

theorem firstPending_cons_of_none (idle : s.fetchPendingFromPeerRpcId peer = none) :
    firstPending (s :: chain) peer = firstPending chain peer := by
  rw [firstPending, blocksFetchFromPeerPendingRpcIds, filterMap_cons, idle]
  rfl

theorem firstPending_cons_of_some {first : ℕ} (waits : s.fetchPendingFromPeerRpcId peer = some first) :
    firstPending (s :: chain) peer = some first := by
  rw [firstPending, blocksFetchFromPeerPendingRpcIds, filterMap_cons, waits]
  rfl

theorem peerQueryError_eq_failAttempt (error : PeerBlockFetchError)
    (once : chain.Pairwise fun s t => s.fetchPendingFromPeerRpcId peer ≠ some rpcId ∨ t.fetchPendingFromPeerRpcId peer ≠ some rpcId)
    (first : chain.firstPending peer = some rpcId) :
    chain.peerQueryError peer rpcId error = chain.failAttempt peer rpcId error := by
  induction chain with
  | nil => cases first
  | cons s chain ih =>
    obtain ⟨others, once⟩ := pairwise_cons.1 once
    rw [failAttempt, map_cons]
    cases waits : s.fetchPendingFromPeerRpcId peer with
    | none =>
      rw [firstPending_cons_of_none waits] at first
      have not_here : ¬ s.isFetchPendingFromPeer peer rpcId = true := by
        rw [isFetchPendingFromPeer_iff, waits]
        exact nofun
      rw [peerQueryError_cons_of_none waits, ih once first, if_neg not_here]
      rfl
    | some id =>
      rw [firstPending_cons_of_some waits] at first
      cases first
      have rest : failAttempt chain peer rpcId error = chain :=
        failAttempt_of_unknown fun t mem => (others t mem).resolve_left (not_not.2 waits)
      rw [failAttempt] at rest
      rw [peerQueryError_cons_of_some waits ⟨s, mem_cons_self, waits⟩, rest,
        if_pos (isFetchPendingFromPeer_iff.2 waits)]

theorem mem_peerQueryError_of_not_first (mem : s ∈ chain)
    (waits : s.fetchPendingFromPeerRpcId peer = some rpcId) (later : chain.firstPending peer ≠ some rpcId) :
    s ∈ chain.peerQueryError peer rpcId error := by
  induction chain with
  | nil => cases mem
  | cons t chain ih =>
    cases first : t.fetchPendingFromPeerRpcId peer with
    | none =>
      rw [firstPending_cons_of_none first] at later
      rw [peerQueryError_cons_of_none first]
      rcases mem_cons.1 mem with rfl | mem
      · exact mem_cons_self
      · exact mem_cons_of_mem _ (ih mem later)
    | some id =>
      rw [firstPending_cons_of_some first] at later
      rw [peerQueryError_cons_of_some first ⟨s, mem, waits⟩]
      rcases mem_cons.1 mem with rfl | mem
      · exact absurd (first.symm.trans waits) later
      · exact mem_cons_of_mem _ mem

/-- **Disconnection**: the errors come in the order of the chain, so each hits its attempt. -/
theorem disconnected_eq_failPeer (chain : SyncChain P hashing) (peer : P) :
    chain.disconnected peer = chain.failPeer peer .disconnected := by
  -- entries before the ones still to fail no longer wait for the peer
  have pass : ∀ (done : SyncBlockState P hashing) (ids : List ℕ) (rest : SyncChain P hashing),
      done.fetchPendingFromPeerRpcId peer = none →
      ids.foldl (fun chain rpcId => peerQueryError chain peer rpcId .disconnected) (done :: rest) =
        done :: ids.foldl (fun chain rpcId => peerQueryError chain peer rpcId .disconnected) rest := by
    intro done ids
    induction ids with
    | nil => exact fun _ _ => rfl
    | cons id ids ih =>
      intro rest idle
      rw [foldl_cons, foldl_cons, peerQueryError_cons_of_none idle, ih _ idle]
  induction chain with
  | nil => rfl
  | cons s chain ih =>
    rw [disconnected, blocksFetchFromPeerPendingRpcIds] at ih ⊢
    rw [failPeer, map_cons, filterMap_cons]
    cases waits : s.fetchPendingFromPeerRpcId peer with
    | none =>
      have stays : s.failFrom peer .disconnected = s := by rw [failFrom, waits]
      rw [stays, pass s _ _ waits, ih]
      rfl
    | some id =>
      have fails : s.failFrom peer .disconnected = s.setAttempt peer (.error id .disconnected) := by
        rw [failFrom, waits]
      rw [foldl_cons, peerQueryError_cons_of_some waits ⟨s, mem_cons_self, waits⟩, ← fails, pass, ih]
      · rfl
      · rw [rpcId_failFrom, if_pos rfl]

end SyncChain

/-! ## The attempts for one block -/

/-- Where the attempts for a block stand: at most one has not failed. -/
inductive Course (hash : H) (attempts : OrdMap P (PeerRpcState hashing)) : Prop where
  | quiet (failed : ∀ peer attempt, attempts.get peer = some attempt → attempt.isError)
  | asked (peer : P) (rpcId : ℕ) (here : attempts.get peer = some (.pending rpcId))
      (failed : ∀ q attempt, q ≠ peer → attempts.get q = some attempt → attempt.isError)
  | fetched (peer : P) (block : BlockWithHash hashing) (here : attempts.get peer = some (.success block))
      (right : block.hash = hash) (failed : ∀ q attempt, q ≠ peer → attempts.get q = some attempt → attempt.isError)

variable {attempts : OrdMap P (PeerRpcState hashing)}

variable {hash : H}

variable {peer : P} {rpcId : ℕ}

theorem Course.failed_of_pending (course : Course hash attempts)
    (waits : attempts.get peer = some (.pending rpcId)) :
    ∀ q attempt, q ≠ peer → attempts.get q = some attempt → attempt.isError := by
  cases course with
  | quiet failed => cases failed _ _ waits
  | asked peer' rpcId' here failed =>
    by_cases same : peer = peer'
    · exact same ▸ failed
    · cases failed _ _ same waits
  | fetched peer' block here right failed =>
    by_cases same : peer = peer'
    · cases here.symm.trans (same ▸ waits)
    · cases failed _ _ same waits

theorem get_of_waits {b : SyncBlockState P hashing} (waits : b.fetchPendingFromPeerRpcId peer = some rpcId) :
    ∃ hash attempts, b = .fetchPending hash attempts ∧ attempts.get peer = some (.pending rpcId) := by
  cases b with
  | fetchPending hash attempts =>
    obtain ⟨attempt, found, pending⟩ := Option.bind_eq_some_iff.1 waits
    cases attempt with
    | pending id =>
      cases pending
      exact ⟨hash, attempts, rfl, found⟩
    | _ => cases pending
  | _ => cases waits

theorem get_setAttempt {old : PeerRpcState hashing} (found : attempts.get peer = some old)
    (new : PeerRpcState hashing) (q : P) :
    (attempts.modify peer fun _ => new).get q = if q = peer then some new else attempts.get q := by
  rw [get_modify]
  split
  · next same => rw [same, found, Option.map_some]
  · rfl

theorem Course.fail (course : Course hash attempts) (waits : attempts.get peer = some (.pending rpcId)) (id : ℕ)
    (error : PeerBlockFetchError) : Course hash (attempts.modify peer fun _ => .error id error) := by
  refine .quiet fun q attempt found => ?_
  rw [get_setAttempt waits] at found
  split at found
  · cases found
    rfl
  · next other => exact course.failed_of_pending waits q attempt other found

variable {block : BlockWithHash hashing}

theorem Course.succeed (course : Course hash attempts) (waits : attempts.get peer = some (.pending rpcId))
    (right : block.hash = hash) : Course hash (attempts.modify peer fun _ => .success block) := by
  refine .fetched peer block (by rw [get_setAttempt waits, if_pos rfl]) right fun q attempt other found => ?_
  rw [get_setAttempt waits, if_neg other] at found
  exact course.failed_of_pending waits q attempt other found

theorem Course.only (course : Course hash attempts) {q : P} {attempt : PeerRpcState hashing}
    (waits : attempts.get peer = some (.pending rpcId)) (found : attempts.get q = some attempt)
    (live : attempt.isError = false) : q = peer ∧ attempt = .pending rpcId := by
  by_cases same : q = peer
  · subst same
    cases waits.symm.trans found
    exact ⟨rfl, rfl⟩
  · cases live.symm.trans (course.failed_of_pending waits q attempt same found)

theorem idle_of_failed {q : P} (failed : ∀ attempt, attempts.get q = some attempt → attempt.isError) :
    (attempts.get q).bind PeerRpcState.fetchPendingRpcId = none := by
  cases found : attempts.get q with
  | none => rfl
  | some attempt =>
    have error := failed attempt found
    cases attempt with
    | error => rfl
    | _ => cases error

theorem Course.of_success (course : Course hash attempts) (got : attempts.get peer = some (.success block)) :
    block.hash = hash ∧ ∀ q, (attempts.get q).bind PeerRpcState.fetchPendingRpcId = none := by
  cases course with
  | quiet failed => cases failed peer _ got
  | asked peer' rpcId here failed =>
    by_cases same : peer = peer'
    · cases here.symm.trans (same ▸ got)
    · cases failed peer _ same got
  | fetched peer' block' here right failed =>
    by_cases same : peer = peer'
    · subst same
      cases here.symm.trans got
      refine ⟨right, fun q => ?_⟩
      by_cases this : q = peer
      · rw [this, got]
        rfl
      · exact idle_of_failed fun attempt => failed q attempt this
    · cases failed peer _ same got

/-! ## Requests and answers -/

variable [DecidableEq H]

/-- A request that a peer has yet to answer: of a block, or of something else. -/
structure Request (H P : Type) where
  peer : P
  rpcId : ℕ
  block : Option H
  deriving DecidableEq, Repr

/-- What a request is answered with, as far as blocks are concerned. -/
inductive Answer (H B : Type) where
  | none
  | block (block : Block H B)
  | other

inductive FetchEvent (H B P : Type) where
  | init (peer : P) (hash : H)
  | retry (peer : P) (hash : H)
  | request (peer : P)
  | response (peer : P) (rpcId : ℕ) (answer : Answer H B)
  | timeout (peer : P) (rpcId : ℕ)
  | disconnect (peer : P)
  | fetchSuccess (hash : H)

/-- The chain, and of the channels the next rpc ids and the requests under way. -/
structure Fetching (P : Type) [LinearOrder P] (hashing : Hashing H B) where
  chain : SyncChain P hashing
  nextLocalRpcId : P → ℕ
  outstanding : List (Request H P)

namespace SyncChain

def handleResponse (chain : SyncChain P hashing) (peer : P) (rpcId : ℕ) : Answer H B → SyncChain P hashing
  | .none => chain.peerQueryError peer rpcId .dataUnavailable
  | .block block =>
    match BlockWithHash.tryNew hashing block with
    | some response => chain.peerQuerySuccess peer rpcId response
    | none => chain
  -- an answer of another kind is not compared with the request
  | .other => chain

end SyncChain

namespace SyncChain

variable {chain : SyncChain P hashing} {peer : P} {rpcId : ℕ} {block : Block H B}

theorem mem_of_blocksFetchNext (next : chain.blocksFetchNext = some hash) :
    ∃ attempts, .fetchPending hash attempts ∈ chain ∧ ∀ q, attempts.get q = none := by
  obtain ⟨b, mem, here⟩ := List.exists_of_findSome?_eq_some next
  cases b with
  | fetchPending h attempts =>
    simp only [Option.ite_none_right_eq_some, Option.some.injEq] at here
    obtain ⟨unasked, rfl⟩ := here
    refine ⟨attempts, mem, fun q => get_eq_none.2 fun v found => ?_⟩
    rw [List.isEmpty_iff.1 unasked] at found
    cases found
  | _ => cases here

theorem mem_of_blocksFetchRetry (next : chain.blocksFetchRetryIter.head? = some hash) :
    ∃ attempts, .fetchPending hash attempts ∈ chain ∧ ∀ q attempt, attempts.get q = some attempt → attempt.isError := by
  obtain ⟨b, mem, here⟩ := mem_filterMap.1 (mem_of_mem_head? next)
  cases b with
  | fetchPending h attempts =>
    simp only [retryHash, Option.ite_none_right_eq_some, Option.some.injEq, Bool.and_eq_true] at here
    obtain ⟨⟨-, failed⟩, rfl⟩ := here
    exact ⟨attempts, mem, fun q attempt found => all_eq_true.1 failed _ (get_eq_some.1 found)⟩
  | _ => cases here

theorem handleResponse_of_other
    (other : ∀ c ∈ chain, c.fetchPendingFromPeerRpcId peer = some rpcId → block.tryHash hashing ≠ some c.blockHash) :
    chain.handleResponse peer rpcId (.block block) = chain := by
  rw [handleResponse]
  split
  · next response new =>
    refine if_neg fun enabled => ?_
    cases found : chain.blockState response.hash with
    | none =>
      rw [found] at enabled
      cases enabled
    | some c =>
      rw [found, Option.any_some, isFetchPendingFromPeer_iff] at enabled
      have same : c.blockHash = response.hash := by simpa using List.find?_some found
      refine other c (List.mem_of_find?_eq_some found) enabled ?_
      rw [← BlockWithHash.tryNew_eq_some.1 new, response.hashed, same]
  · rfl

theorem handleResponse_of_right (distinct : (chain.map blockHash).Nodup) {b : SyncBlockState P hashing}
    (mem : b ∈ chain) (waits : b.fetchPendingFromPeerRpcId peer = some rpcId)
    (right : block.tryHash hashing = some b.blockHash) :
    ∃ response : BlockWithHash hashing, response.hash = b.blockHash ∧
      chain.handleResponse peer rpcId (.block block) =
        chain.map fun c => if c.blockHash = b.blockHash then b.setAttempt peer (.success response) else c := by
  refine ⟨⟨block, b.blockHash, right⟩, rfl, ?_⟩
  have new : BlockWithHash.tryNew hashing block = some ⟨block, b.blockHash, right⟩ :=
    BlockWithHash.tryNew_eq_some.2 rfl
  have enabled : (chain.blockState b.blockHash).any (SyncBlockState.isFetchPendingFromPeer peer rpcId) = true := by
    rw [blockState_of_mem distinct mem, Option.any_some, isFetchPendingFromPeer_iff]
    exact waits
  rw [handleResponse, new]
  simp only
  rw [peerQuerySuccess, if_pos enabled, updateBlock_eq distinct mem]

end SyncChain

namespace Fetching

def requestSend (s : Fetching P hashing) (peer : P) (block : Option H) : Fetching P hashing :=
  { s with
    nextLocalRpcId := Function.update s.nextLocalRpcId peer (s.nextLocalRpcId peer + 1)
    outstanding := s.outstanding ++ [⟨peer, s.nextLocalRpcId peer, block⟩] }

/-- A request for a block: sent, and on the way its attempt becomes pending. -/
def query (s : Fetching P hashing) (peer : P) (hash : H) (chain : SyncChain P hashing) : Fetching P hashing :=
  { s.requestSend peer (some hash) with chain := chain.peerQueryPending hash peer (s.nextLocalRpcId peer) }

def awaits (s : Fetching P hashing) (peer : P) (rpcId : ℕ) : Bool :=
  s.outstanding.any fun r => decide (r.peer = peer) && decide (r.rpcId = rpcId)

def settle (s : Fetching P hashing) (peer : P) (rpcId : ℕ) (chain : SyncChain P hashing) : Fetching P hashing :=
  { s with
    chain := chain
    outstanding := s.outstanding.filter fun r => !(decide (r.peer = peer) && decide (r.rpcId = rpcId)) }

def step (s : Fetching P hashing) : FetchEvent H B P → Fetching P hashing
  | .init peer hash =>
    if s.chain.blocksFetchNext = some hash then s.query peer hash (s.chain.peerQueryInit hash peer) else s
  | .retry peer hash =>
    if s.chain.blocksFetchRetryIter.head? = some hash then s.query peer hash (s.chain.peerQueryRetry hash peer) else s
  | .request peer => s.requestSend peer none
  | .response peer rpcId answer =>
    if s.awaits peer rpcId then s.settle peer rpcId (s.chain.handleResponse peer rpcId answer) else s
  | .timeout peer rpcId =>
    if s.awaits peer rpcId then s.settle peer rpcId (s.chain.peerQueryError peer rpcId .timeout) else s
  | .disconnect peer =>
    -- a peer that comes back has new channels
    { chain := s.chain.disconnected peer
      nextLocalRpcId := Function.update s.nextLocalRpcId peer 0
      outstanding := s.outstanding.filter fun r => decide (r.peer ≠ peer) }
  | .fetchSuccess hash => { s with chain := s.chain.blocksFetchSuccess hash }

/-- The start of a sync: some blocks are there, the others were asked for from nobody. -/
structure Fresh (s : Fetching P hashing) : Prop where
  distinct : (s.chain.map blockHash).Nodup
  unasked : ∀ hash attempts, .fetchPending hash attempts ∈ s.chain → attempts = empty
  idle : s.outstanding = []

/-! ## What is claimed of a run -/

/-- Every missing block has no attempt, only failed ones, a successful one, or one under way. -/
def Tracked (s : Fetching P hashing) : Prop :=
  ∀ hash attempts, .fetchPending hash attempts ∈ s.chain → (∀ peer, attempts.get peer = none) ∨
    (∀ peer attempt, attempts.get peer = some attempt → attempt.isError) ∨
    (∃ peer block, attempts.get peer = some (.success block)) ∨
    ∃ peer rpcId, (attempts.get peer = some .init ∨ attempts.get peer = some (.pending rpcId)) ∧
      ⟨peer, rpcId, some hash⟩ ∈ s.outstanding

def Hits (s : Fetching P hashing) : FetchEvent H B P → Prop
  | .response peer rpcId .none =>
    s.awaits peer rpcId →
      s.chain.peerQueryError peer rpcId .dataUnavailable = s.chain.failAttempt peer rpcId .dataUnavailable
  | .timeout peer rpcId =>
    s.awaits peer rpcId → s.chain.peerQueryError peer rpcId .timeout = s.chain.failAttempt peer rpcId .timeout
  | .disconnect peer => s.chain.disconnected peer = s.chain.failPeer peer .disconnected
  | _ => True

/-- An error concerns the first pending attempt at its peer, and a block that comes is the
    block that was asked for. -/
def InOrder (s : Fetching P hashing) : FetchEvent H B P → Prop
  | .response peer rpcId answer =>
    ∀ hash, ⟨peer, rpcId, some hash⟩ ∈ s.outstanding →
      match answer with
      | .none => s.chain.firstPending peer = some rpcId
      | .block block => block.tryHash hashing = some hash
      | .other => False
  | .timeout peer rpcId =>
    ∀ hash, ⟨peer, rpcId, some hash⟩ ∈ s.outstanding → s.chain.firstPending peer = some rpcId
  | _ => True

/-! ## The invariant -/

/-- The requests for blocks that are outstanding are those of the pending attempts. -/
structure Sound (s : Fetching P hashing) : Prop where
  distinct : (s.chain.map blockHash).Nodup
  course : ∀ hash attempts, .fetchPending hash attempts ∈ s.chain → Course hash attempts
  known : ∀ peer rpcId hash, ⟨peer, rpcId, some hash⟩ ∈ s.outstanding ↔
    ∃ b ∈ s.chain, b.blockHash = hash ∧ b.fetchPendingFromPeerRpcId peer = some rpcId
  fresh : ∀ r ∈ s.outstanding, r.rpcId < s.nextLocalRpcId r.peer
  once : ∀ r ∈ s.outstanding, ∀ r' ∈ s.outstanding, r.peer = r'.peer → r.rpcId = r'.rpcId → r = r'

variable {s : Fetching P hashing}

theorem Sound.of_fresh (start : s.Fresh) : s.Sound := by
  have none_waits : ∀ b ∈ s.chain, ∀ peer, b.fetchPendingFromPeerRpcId peer = none := by
    intro b mem peer
    cases b with
    | fetchPending hash attempts =>
      cases start.unasked _ _ mem
      rfl
    | _ => rfl
  refine ⟨start.distinct, ?_, ?_, ?_, ?_⟩
  · intro hash attempts mem
    cases start.unasked _ _ mem
    exact .quiet fun _ _ h => by cases h
  · intro peer rpcId hash
    rw [start.idle]
    refine iff_of_false (not_mem_nil) ?_
    rintro ⟨b, mem, -, waits⟩
    cases (none_waits b mem peer).symm.trans waits
  · rw [start.idle]
    exact fun _ h => absurd h not_mem_nil
  · rw [start.idle]
    exact fun _ h => absurd h not_mem_nil

variable {b : SyncBlockState P hashing} {rpcId : ℕ}

variable {peer : P}

theorem Sound.same_block (sound : s.Sound) {hash' : H} (sent : ⟨peer, rpcId, some hash⟩ ∈ s.outstanding)
    (sent' : ⟨peer, rpcId, some hash'⟩ ∈ s.outstanding) : hash = hash' := by
  have same := sound.once _ sent _ sent' rfl rfl
  simpa only [Request.mk.injEq, Option.some.injEq, true_and] using same

theorem Sound.unique (sound : s.Sound) {c : SyncBlockState P hashing} (memb : b ∈ s.chain) (memc : c ∈ s.chain)
    (waitsb : b.fetchPendingFromPeerRpcId peer = some rpcId)
    (waitsc : c.fetchPendingFromPeerRpcId peer = some rpcId) : b = c := by
  have rb := (sound.known peer rpcId _).2 ⟨b, memb, rfl, waitsb⟩
  have rc := (sound.known peer rpcId _).2 ⟨c, memc, rfl, waitsc⟩
  exact inj_on_of_nodup_map sound.distinct memb memc (sound.same_block rb rc)

theorem Sound.tracked (sound : s.Sound) : s.Tracked := by
  intro hash attempts mem
  cases sound.course hash attempts mem with
  | quiet failed => exact .inr (.inl failed)
  | asked peer rpcId here _ =>
    have waits : (SyncBlockState.fetchPending hash attempts).fetchPendingFromPeerRpcId peer = some rpcId := by
      rw [fetchPendingFromPeerRpcId, here]
      rfl
    exact .inr (.inr (.inr ⟨peer, rpcId, .inr here, (sound.known peer rpcId hash).2 ⟨_, mem, rfl, waits⟩⟩))
  | fetched peer block here _ _ => exact .inr (.inr (.inl ⟨peer, block, here⟩))

theorem Sound.exchange {s' : Fetching P hashing} (sound : s.Sound) (b' : SyncBlockState P hashing)
    (mem : b ∈ s.chain) (same : b'.blockHash = b.blockHash)
    (chain : s'.chain = s.chain.map fun c => if c.blockHash = b.blockHash then b' else c)
    (course : ∀ hash attempts, b' = .fetchPending hash attempts → Course hash attempts)
    (own : ∀ peer rpcId, ⟨peer, rpcId, some b.blockHash⟩ ∈ s'.outstanding ↔ b'.fetchPendingFromPeerRpcId peer = some rpcId)
    (others : ∀ peer rpcId hash, hash ≠ b.blockHash → (⟨peer, rpcId, some hash⟩ ∈ s'.outstanding ↔ ⟨peer, rpcId, some hash⟩ ∈ s.outstanding))
    (fresh : ∀ r ∈ s'.outstanding, r.rpcId < s'.nextLocalRpcId r.peer)
    (once : ∀ r ∈ s'.outstanding, ∀ r' ∈ s'.outstanding, r.peer = r'.peer → r.rpcId = r'.rpcId → r = r') :
    s'.Sound := by
  refine ⟨?_, ?_, ?_, fresh, once⟩
  · rw [chain, blockHash_exchange same]
    exact sound.distinct
  · intro hash attempts mem'
    rw [chain, mem_exchange mem] at mem'
    rcases mem' with is | ⟨old, -⟩
    · exact course hash attempts is.symm
    · exact sound.course hash attempts old
  · intro peer rpcId hash
    simp only [chain, mem_exchange mem]
    by_cases here : hash = b.blockHash
    · subst here
      rw [own]
      constructor
      · intro waits
        exact ⟨b', .inl rfl, same, waits⟩
      · rintro ⟨c, rfl | ⟨-, other⟩, is, waits⟩
        · exact waits
        · exact absurd is other
    · rw [others peer rpcId hash here, sound.known]
      constructor
      · rintro ⟨c, memc, is, waits⟩
        exact ⟨c, .inr ⟨memc, fun eq => here (is.symm.trans eq)⟩, is, waits⟩
      · rintro ⟨c, rfl | ⟨memc, -⟩, is, waits⟩
        · exact absurd (is.symm.trans same) here
        · exact ⟨c, memc, is, waits⟩

theorem Sound.known_of_mem (sound : s.Sound) (mem : b ∈ s.chain) (peer : P) (rpcId : ℕ) :
    ⟨peer, rpcId, some b.blockHash⟩ ∈ s.outstanding ↔ b.fetchPendingFromPeerRpcId peer = some rpcId := by
  rw [sound.known]
  constructor
  · rintro ⟨c, memc, same, waits⟩
    rwa [← inj_on_of_nodup_map sound.distinct memc mem same]
  · intro waits
    exact ⟨b, mem, rfl, waits⟩

/-! ## A request is sent -/

theorem mem_requestSend {block : Option H} {r : Request H P} :
    r ∈ (s.requestSend peer block).outstanding ↔ r ∈ s.outstanding ∨ r = ⟨peer, s.nextLocalRpcId peer, block⟩ := by
  simp [requestSend]

theorem Sound.fresh_requestSend (sound : s.Sound) (peer : P) (block : Option H) :
    ∀ r ∈ (s.requestSend peer block).outstanding, r.rpcId < (s.requestSend peer block).nextLocalRpcId r.peer := by
  intro r mem
  simp only [requestSend, Function.update_apply]
  rcases mem_requestSend.1 mem with old | rfl
  · have := sound.fresh r old
    split
    · next same =>
      rw [same] at this
      omega
    · exact this
  · rw [if_pos rfl]
    exact Nat.lt_succ_self _

theorem Sound.once_requestSend (sound : s.Sound) (peer : P) (block : Option H) :
    ∀ r ∈ (s.requestSend peer block).outstanding, ∀ r' ∈ (s.requestSend peer block).outstanding,
      r.peer = r'.peer → r.rpcId = r'.rpcId → r = r' := by
  -- the new request has an rpc id above all others at its peer
  have above : ∀ r ∈ s.outstanding, r.peer = peer → r.rpcId ≠ s.nextLocalRpcId peer := by
    rintro r old rfl
    exact (sound.fresh r old).ne
  intro r mem r' mem' samePeer sameId
  rcases mem_requestSend.1 mem with old | rfl <;> rcases mem_requestSend.1 mem' with old' | rfl
  · exact sound.once r old r' old' samePeer sameId
  · exact absurd sameId (above r old samePeer)
  · exact absurd sameId.symm (above r' old' samePeer.symm)
  · rfl

theorem Sound.request (sound : s.Sound) (peer : P) : (s.requestSend peer none).Sound := by
  refine ⟨sound.distinct, sound.course, fun q rpcId hash => ?_, sound.fresh_requestSend peer none,
    sound.once_requestSend peer none⟩
  rw [mem_requestSend, or_iff_left (by simp)]
  exact sound.known q rpcId hash

theorem Sound.query_chain (sound : s.Sound) (mem : b ∈ s.chain) (peer : P) (rpcId : ℕ)
    (initial : (b.insertAttempt peer .init).isFetchInitFromPeer peer = true) :
    SyncChain.peerQueryPending (s.chain.updateBlock b.blockHash (insertAttempt peer .init))
      b.blockHash peer rpcId =
      s.chain.map fun c =>
        if c.blockHash = b.blockHash then (b.insertAttempt peer .init).setAttempt peer (.pending rpcId) else c := by
  have same : (b.insertAttempt peer .init).blockHash = b.blockHash := by simp
  have distinct := sound.distinct
  rw [← blockHash_exchange same] at distinct
  have mem₁ : b.insertAttempt peer .init ∈
      s.chain.map fun c => if c.blockHash = b.blockHash then b.insertAttempt peer .init else c :=
    (mem_exchange mem).2 (.inl rfl)
  have found := blockState_of_mem distinct mem₁
  have update := updateBlock_eq distinct mem₁ (SyncBlockState.setAttempt peer (.pending rpcId))
  rw [exchange_exchange same, same] at update
  rw [same] at found
  rw [updateBlock_eq sound.distinct mem, peerQueryPending, found, Option.any_some, if_pos initial, update]

theorem Sound.ask (sound : s.Sound) (mem : .fetchPending hash attempts ∈ s.chain)
    (failed : ∀ peer attempt, attempts.get peer = some attempt → attempt.isError) (peer : P) :
    (s.query peer hash (s.chain.updateBlock hash (insertAttempt peer .init))).Sound := by
  have lookup : ∀ q, ((attempts.insert peer .init).modify peer fun _ => .pending (s.nextLocalRpcId peer)).get q =
      if q = peer then some (.pending (s.nextLocalRpcId peer)) else attempts.get q := by
    intro q
    rw [get_modify, get_insert]
    split <;> rfl
  have idle : ∀ q, (attempts.get q).bind PeerRpcState.fetchPendingRpcId = none := fun q => idle_of_failed (failed q)
  refine sound.exchange
    (.fetchPending hash ((attempts.insert peer .init).modify peer fun _ => .pending (s.nextLocalRpcId peer))) mem rfl
    (sound.query_chain mem peer (s.nextLocalRpcId peer) ?_) ?_ ?_ ?_
    (sound.fresh_requestSend peer (some hash)) (sound.once_requestSend peer (some hash))
  · simp [insertAttempt, isFetchInitFromPeer, get_insert, PeerRpcState.isFetchInit]
  · rintro hash' attempts' ⟨⟩
    refine .asked peer (s.nextLocalRpcId peer) (by rw [lookup, if_pos rfl]) fun q attempt other found => ?_
    rw [lookup, if_neg other] at found
    exact failed q attempt found
  · intro q rpcId
    have before := sound.known_of_mem mem q rpcId
    simp only [fetchPendingFromPeerRpcId, idle] at before
    simp only [query, fetchPendingFromPeerRpcId, lookup]
    rw [mem_requestSend, or_iff_right fun old => by cases before.1 old]
    split
    · next same => simp [same, PeerRpcState.fetchPendingRpcId, blockHash, eq_comm]
    · next other => simp [other, idle]
  · intro q rpcId hash' other
    have ne : ¬ hash' = hash := other
    simp only [query, mem_requestSend]
    exact or_iff_left (by simp [ne])

/-! ## A request is over -/

variable {chain : SyncChain P hashing}

theorem mem_settle {r : Request H P} :
    r ∈ (s.settle peer rpcId chain).outstanding ↔ r ∈ s.outstanding ∧ ¬ (r.peer = peer ∧ r.rpcId = rpcId) := by
  simp [settle, imp_iff_not_or]

theorem Sound.settle_other (sound : s.Sound) (unknown : ∀ hash, ⟨peer, rpcId, some hash⟩ ∉ s.outstanding) :
    (s.settle peer rpcId s.chain).Sound := by
  refine ⟨sound.distinct, sound.course, fun q id hash => ?_, fun r mem => sound.fresh r (mem_settle.1 mem).1,
    fun r mem r' mem' => sound.once r (mem_settle.1 mem).1 r' (mem_settle.1 mem').1⟩
  rw [mem_settle, and_iff_left_of_imp]
  · exact sound.known q id hash
  · rintro mem ⟨rfl, rfl⟩
    exact unknown hash mem

theorem Sound.settle_attempt (sound : s.Sound) (mem : b ∈ s.chain)
    (waits : b.fetchPendingFromPeerRpcId peer = some rpcId) (attempt : PeerRpcState hashing)
    (done : attempt.fetchPendingRpcId = none)
    (exchanged : chain = s.chain.map fun c => if c.blockHash = b.blockHash then b.setAttempt peer attempt else c)
    (course : ∀ hash attempts, b.setAttempt peer attempt = .fetchPending hash attempts → Course hash attempts) :
    (s.settle peer rpcId chain).Sound := by
  refine sound.exchange (b.setAttempt peer attempt) mem (by simp) exchanged course (fun q id => ?_)
    (fun q id hash other => ?_) (fun r mem => sound.fresh r (mem_settle.1 mem).1)
    (fun r mem r' mem' => sound.once r (mem_settle.1 mem).1 r' (mem_settle.1 mem').1)
  · rw [mem_settle, sound.known_of_mem mem, rpcId_setAttempt_of_done done]
    split
    · next same =>
      subst same
      refine iff_of_false ?_ nofun
      rintro ⟨waits', not_this⟩
      cases waits.symm.trans waits'
      exact not_this ⟨rfl, rfl⟩
    · next other => exact and_iff_left fun ⟨same, _⟩ => other same
  · refine mem_settle.trans (and_iff_left_of_imp ?_)
    -- the only request with this peer and rpc id is the one for `b`
    rintro mem' ⟨rfl, rfl⟩
    exact other (sound.same_block mem' ((sound.known_of_mem mem q id).2 waits))

theorem Sound.not_tracked (sound : s.Sound) (mem : b ∈ s.chain)
    (waits : b.fetchPendingFromPeerRpcId peer = some rpcId) (stays : b ∈ chain) :
    ¬ (s.settle peer rpcId chain).Tracked := by
  intro tracked
  obtain ⟨hash, attempts, rfl, here⟩ := get_of_waits waits
  have course := sound.course hash attempts mem
  rcases tracked hash attempts stays with none | failed | ⟨q, block, found⟩ | ⟨q, id, found, sent⟩
  · cases (none peer).symm.trans here
  · cases failed peer _ here
  · cases (course.only here found rfl).2
  · rcases found with found | found
    · cases (course.only here found rfl).2
    · obtain ⟨rfl, same⟩ := course.only here found rfl
      cases same
      exact (mem_settle.1 sent).2 ⟨rfl, rfl⟩

/-- **An error**: the request's attempt fails exactly when it is the first at the peer. -/
theorem Sound.error {s : Fetching P hashing} (sound : s.Sound) {b : SyncBlockState P hashing} (mem : b ∈ s.chain)
    {peer : P} {rpcId : ℕ} (waits : b.fetchPendingFromPeerRpcId peer = some rpcId) (error : PeerBlockFetchError) :
    (s.chain.firstPending peer = some rpcId →
      s.chain.peerQueryError peer rpcId error = s.chain.failAttempt peer rpcId error ∧
      (s.settle peer rpcId (s.chain.peerQueryError peer rpcId error)).Sound) ∧
    ((s.settle peer rpcId (s.chain.peerQueryError peer rpcId error)).Tracked →
      s.chain.firstPending peer = some rpcId) := by
  constructor
  · intro first
    have once : s.chain.Pairwise fun c d =>
        c.fetchPendingFromPeerRpcId peer ≠ some rpcId ∨ d.fetchPendingFromPeerRpcId peer ≠ some rpcId := by
      refine (pairwise_map.1 sound.distinct).imp_of_mem fun {c d} memc memd ne => ?_
      by_contra both
      simp only [not_or, not_not] at both
      exact ne (congrArg _ (sound.unique memc memd both.1 both.2))
    have hit := peerQueryError_eq_failAttempt error once first
    refine ⟨hit, sound.settle_attempt mem waits (.error rpcId error) rfl ?_ ?_⟩
    · rw [hit, failAttempt]
      refine map_congr_left fun c memc => ?_
      by_cases same : c.blockHash = b.blockHash
      · rw [inj_on_of_nodup_map sound.distinct memc mem same, if_pos rfl,
          if_pos (isFetchPendingFromPeer_iff.2 waits)]
      · rw [if_neg same, if_neg]
        intro waitsc
        rw [isFetchPendingFromPeer_iff] at waitsc
        exact same (congrArg _ (sound.unique memc mem waitsc waits))
    · intro hash attempts is
      obtain ⟨h, a, rfl, here⟩ := get_of_waits waits
      cases is
      exact (sound.course hash a mem).fail here rpcId error
  · intro tracked
    by_contra later
    exact sound.not_tracked mem waits (mem_peerQueryError_of_not_first mem waits later) tracked

/-- A request ends well, with `hit` and a tracked state, exactly when the end is `good` for
    the block that was asked for. -/
def Settles (s : Fetching P hashing) (peer : P) (rpcId : ℕ) (chain : SyncChain P hashing) (hit : Prop)
    (good : H → Prop) : Prop :=
  (hit ∧ (s.settle peer rpcId chain).Tracked ↔ ∀ hash, ⟨peer, rpcId, some hash⟩ ∈ s.outstanding → good hash) ∧
    ((∀ hash, ⟨peer, rpcId, some hash⟩ ∈ s.outstanding → good hash) → (s.settle peer rpcId chain).Sound)

theorem Sound.settles (sound : s.Sound) {hit : Prop} {good : H → Prop}
    (asked : ∀ b ∈ s.chain, b.fetchPendingFromPeerRpcId peer = some rpcId →
      (good b.blockHash → hit ∧ (s.settle peer rpcId chain).Sound) ∧
      ((s.settle peer rpcId chain).Tracked → good b.blockHash))
    (unasked : (∀ c ∈ s.chain, c.fetchPendingFromPeerRpcId peer ≠ some rpcId) → hit ∧ chain = s.chain) :
    s.Settles peer rpcId chain hit good := by
  by_cases sent : ∃ hash, ⟨peer, rpcId, some hash⟩ ∈ s.outstanding
  · obtain ⟨hash, sent⟩ := sent
    obtain ⟨b, mem, rfl, waits⟩ := (sound.known peer rpcId hash).1 sent
    obtain ⟨settled, back⟩ := asked b mem waits
    refine ⟨⟨fun ⟨_, tracked⟩ hash' sent' => ?_, fun right => ?_⟩, fun right => (settled (right _ sent)).2⟩
    · exact sound.same_block sent' sent ▸ back tracked
    · exact ⟨(settled (right _ sent)).1, (settled (right _ sent)).2.tracked⟩
  · obtain ⟨hits, rfl⟩ := unasked fun c mem waits => sent ⟨_, (sound.known_of_mem mem peer rpcId).2 waits⟩
    have settled := sound.settle_other (not_exists.1 sent)
    exact ⟨iff_of_true ⟨hits, settled.tracked⟩ fun hash here => absurd ⟨hash, here⟩ sent, fun _ => settled⟩

theorem Sound.error_step (sound : s.Sound) (peer : P) (rpcId : ℕ) (error : PeerBlockFetchError) :
    s.Settles peer rpcId (s.chain.peerQueryError peer rpcId error)
      (s.chain.peerQueryError peer rpcId error = s.chain.failAttempt peer rpcId error)
      fun _ => s.chain.firstPending peer = some rpcId :=
  sound.settles (fun _ mem waits => sound.error mem waits error) fun unknown => by
    rw [peerQueryError_of_unknown unknown, failAttempt_of_unknown unknown]
    exact ⟨rfl, rfl⟩

theorem Sound.block_step (sound : s.Sound) (peer : P) (rpcId : ℕ) (block : Block H B) :
    s.Settles peer rpcId (s.chain.handleResponse peer rpcId (.block block)) True
      fun hash => block.tryHash hashing = some hash := by
  refine sound.settles (fun b mem waits => ⟨fun right => ⟨trivial, ?_⟩, fun tracked => ?_⟩) fun unknown =>
    ⟨trivial, handleResponse_of_other fun c mem waits => absurd waits (unknown c mem)⟩
  · obtain ⟨response, is, exchanged⟩ := handleResponse_of_right sound.distinct mem waits right
    refine sound.settle_attempt mem waits (.success response) rfl exchanged fun hash attempts set => ?_
    obtain ⟨h, a, rfl, here⟩ := get_of_waits waits
    cases set
    exact (sound.course hash a mem).succeed here is
  · by_contra wrong
    have ignored : s.chain.handleResponse peer rpcId (.block block) = s.chain :=
      handleResponse_of_other fun c memc waitsc => sound.unique memc mem waitsc waits ▸ wrong
    rw [ignored] at tracked
    exact sound.not_tracked mem waits mem tracked

theorem Sound.other_step (sound : s.Sound) (peer : P) (rpcId : ℕ) :
    s.Settles peer rpcId s.chain True fun _ => False :=
  sound.settles (fun _ mem waits => ⟨False.elim, sound.not_tracked mem waits mem⟩) fun _ => ⟨trivial, rfl⟩

/-! ## Disconnection and the end of a fetch -/

theorem Sound.disconnect (sound : s.Sound) (peer : P) :
    Sound { chain := s.chain.failPeer peer .disconnected
            nextLocalRpcId := Function.update s.nextLocalRpcId peer 0
            outstanding := s.outstanding.filter fun r => decide (r.peer ≠ peer) } := by
  refine ⟨?_, ?_, fun q rpcId hash => ?_, fun r mem => ?_, fun r mem r' mem' => ?_⟩
  · rw [failPeer, map_map]
    exact (map_congr_left fun c _ => blockHash_failFrom peer .disconnected c) ▸ sound.distinct
  · intro hash attempts mem
    obtain ⟨c, old, is⟩ := mem_map.1 mem
    rw [failFrom] at is
    split at is
    · next rpcId asked =>
      obtain ⟨h, a, rfl, here⟩ := get_of_waits asked
      cases is
      exact (sound.course hash a old).fail here rpcId .disconnected
    · subst is
      exact sound.course hash attempts old
  · simp only [failPeer, mem_map, mem_filter, decide_eq_true_eq, sound.known]
    constructor
    · rintro ⟨⟨b, mem, is, asked⟩, other⟩
      refine ⟨_, ⟨b, mem, rfl⟩, (blockHash_failFrom ..).trans is, ?_⟩
      rw [rpcId_failFrom, if_neg other]
      exact asked
    · rintro ⟨c, ⟨b, mem, rfl⟩, is, asked⟩
      rw [rpcId_failFrom] at asked
      split at asked
      · cases asked
      · next other => exact ⟨⟨b, mem, (blockHash_failFrom ..).symm.trans is, asked⟩, other⟩
  · have other := of_decide_eq_true (mem_filter.1 mem).2
    simp only [Function.update_of_ne other]
    exact sound.fresh r (mem_filter.1 mem).1
  · exact sound.once r (mem_filter.1 mem).1 r' (mem_filter.1 mem').1

theorem Sound.fetchSuccess (sound : s.Sound) (hash : H) :
    Sound { s with chain := s.chain.blocksFetchSuccess hash } := by
  by_cases there : ∃ b ∈ s.chain, b.blockHash = hash
  · obtain ⟨b, mem, rfl⟩ := there
    rw [blocksFetchSuccess, updateBlock_eq sound.distinct mem]
    split
    · next block found =>
      cases b with
      | fetchPending h attempts =>
        obtain ⟨e, memEntry, success⟩ := List.exists_of_findSome?_eq_some found
        obtain ⟨peer, attempt⟩ := e
        have got : attempts.get peer = some attempt := get_eq_some.2 memEntry
        cases attempt with
        | success block' =>
          cases success
          obtain ⟨right, idle⟩ := (sound.course h attempts mem).of_success got
          refine sound.exchange (.fetchSuccess block) mem right rfl (fun _ _ is => nomatch is) (fun q rpcId => ?_)
            (fun _ _ _ _ => Iff.rfl) sound.fresh sound.once
          rw [sound.known_of_mem mem, fetchPendingFromPeerRpcId, idle]
          rfl
        | _ => cases success
      | _ => cases found
    · rw [exchange_self sound.distinct mem]
      exact sound
  · rw [blocksFetchSuccess, updateBlock_of_not_mem fun b mem is => there ⟨b, mem, is⟩]
    exact sound

/-- **One event**: its errors hit their attempts and it leaves a tracked state exactly when
    it is in order. -/
theorem Sound.step (sound : s.Sound) (e : FetchEvent H B P) :
    (s.Hits e ∧ (s.step e).Tracked ↔ s.InOrder e) ∧ (s.InOrder e → (s.step e).Sound) := by
  have calm : s.InOrder e → s.Hits e → (s.step e).Sound →
      (s.Hits e ∧ (s.step e).Tracked ↔ s.InOrder e) ∧ (s.InOrder e → (s.step e).Sound) :=
    fun order hits settled => ⟨iff_of_true ⟨hits, settled.tracked⟩ order, fun _ => settled⟩
  -- nothing comes for a request that is not outstanding
  have awaited : ∀ {peer rpcId hash}, ⟨peer, rpcId, some hash⟩ ∈ s.outstanding → s.awaits peer rpcId = true := by
    intro peer rpcId hash sent
    exact any_eq_true.2 ⟨_, sent, by simp⟩
  cases e with
  | init peer hash =>
    refine calm trivial trivial ?_
    simp only [Fetching.step]
    split
    · next enabled =>
      obtain ⟨attempts, mem, none_asked⟩ := mem_of_blocksFetchNext enabled
      exact sound.ask mem (fun q attempt found => by cases (none_asked q).symm.trans found) peer
    · exact sound
  | retry peer hash =>
    refine calm trivial trivial ?_
    simp only [Fetching.step]
    split
    · next enabled =>
      obtain ⟨attempts, mem, failed⟩ := mem_of_blocksFetchRetry enabled
      exact sound.ask mem failed peer
    · exact sound
  | request peer => exact calm trivial trivial (sound.request peer)
  | response peer rpcId answer =>
    by_cases awaits : s.awaits peer rpcId = true
    · simp only [Fetching.step, if_pos awaits]
      cases answer with
      | none =>
        simpa only [Settles, Hits, InOrder, handleResponse, awaits, true_imp_iff] using
          sound.error_step peer rpcId .dataUnavailable
      | block block => simpa only [Settles, Hits, InOrder, true_and] using sound.block_step peer rpcId block
      | other => simpa only [Settles, Hits, InOrder, handleResponse, true_and] using sound.other_step peer rpcId
    · refine calm (fun hash sent => absurd (awaited sent) awaits) ?_ ?_
      · cases answer <;> first | exact fun h => absurd h awaits | trivial
      · simpa only [Fetching.step, if_neg awaits] using sound
  | timeout peer rpcId =>
    by_cases awaits : s.awaits peer rpcId = true
    · simp only [Fetching.step, if_pos awaits]
      simpa only [Settles, Hits, InOrder, awaits, true_imp_iff] using sound.error_step peer rpcId .timeout
    · refine calm (fun hash sent => absurd (awaited sent) awaits) (fun h => absurd h awaits) ?_
      simpa only [Fetching.step, if_neg awaits] using sound
  | disconnect peer =>
    refine calm trivial (disconnected_eq_failPeer s.chain peer) ?_
    simp only [Fetching.step, disconnected_eq_failPeer]
    exact sound.disconnect peer
  | fetchSuccess hash => exact calm trivial trivial (sound.fetchSuccess hash)

/-- **When fetching tracks its requests**: in a run from a fresh chain all errors hit the
    attempts with their rpc ids, and every missing block is fetched, can be asked for again
    or waits for an outstanding request, exactly when all events are in order. -/
theorem fetching_tracked_iff {s : Fetching P hashing} (start : s.Fresh) (events : List (FetchEvent H B P)) :
    (∀ before e, before ++ [e] <+: events →
      (before.foldl Fetching.step s).Hits e ∧ ((before.foldl Fetching.step s).step e).Tracked) ↔
    ∀ before e, before ++ [e] <+: events → (before.foldl Fetching.step s).InOrder e :=
  foldl_good_iff Sound (fun _ e sound => sound.step e) events (.of_fresh start)

def twoMissing : Fetching ℕ listHashing where
  chain := [.fetchPending [1, 0] empty, .fetchPending [2, 1, 0] empty]
  nextLocalRpcId _ := 0
  outstanding := []

theorem twoMissing_fresh : twoMissing.Fresh where
  distinct := by decide
  unasked hash attempts mem := by
    simp only [twoMissing, mem_cons, fetchPending.injEq, not_mem_nil, or_false] at mem
    exact mem.elim (·.2) (·.2)
  idle := rfl

/-- One block is not there and is asked for again, then it comes. -/
theorem fetching_tracked_retry :
    twoMissing.Fresh ∧ ∀ before e, before ++ [e] <+: [.init 7 [1, 0], .response 7 0 .none, .retry 8 [1, 0],
        .response 8 0 (.block (listBlock 1 [0]).block)] →
      (before.foldl Fetching.step twoMissing).Hits e ∧ ((before.foldl Fetching.step twoMissing).step e).Tracked := by
  refine ⟨twoMissing_fresh, (fetching_tracked_iff twoMissing_fresh _).2 ?_⟩
  refine forall_steps_cons.2 ⟨trivial, forall_steps_cons.2 ⟨fun hash _ => rfl, forall_steps_cons.2 ⟨trivial,
    forall_steps_cons.2 ⟨fun hash sent => ?_, fun before a pre => ?_⟩⟩⟩⟩
  · have only : (Request.mk 8 0 (some hash) : Request (List ℕ) ℕ) ∈ [⟨8, 0, some [1, 0]⟩] := sent
    cases mem_singleton.1 only
    rfl
  · exact absurd (prefix_nil.1 pre) (by simp)

/-- A peer answers with another block: the first block is never asked for again, and the
    error for the second is written over the attempt of the first.  The same error is
    misplaced when both blocks are asked for at once. -/
theorem fetching_not_tracked :
    ¬ ([.init 7 [1, 0], .response 7 0 (.block (listBlock 9 []).block)].foldl Fetching.step twoMissing).Tracked ∧
    ¬ ([.init 7 [1, 0], .response 7 0 (.block (listBlock 9 []).block), .init 7 [2, 1, 0]].foldl Fetching.step
        twoMissing).Hits (.response 7 1 .none) ∧
    ¬ ([.init 7 [1, 0], .init 7 [2, 1, 0]].foldl Fetching.step twoMissing).Hits (.response 7 1 .none) ∧
    ¬ ([.init 7 [1, 0], .init 7 [2, 1, 0], .response 7 1 .none].foldl Fetching.step twoMissing).Tracked := by
  have start := Sound.of_fresh twoMissing_fresh
  have one := (start.step (.init 7 [1, 0])).2 trivial
  have two := (one.step (.init 7 [2, 1, 0])).2 trivial
  refine ⟨fun tracked => ?_, fun hits => ?_, fun hits => ?_, fun tracked => ?_⟩
  · have order := (one.step (.response 7 0 (.block (listBlock 9 []).block))).1.1 ⟨trivial, tracked⟩
    cases order [1, 0] mem_cons_self
  · have ids := congrArg (List.map (fetchPendingFromPeerRpcId 7)) (hits rfl)
    revert ids
    decide
  · have ids := congrArg (List.map (fetchPendingFromPeerRpcId 7)) (hits rfl)
    revert ids
    decide
  · -- the second block still waits, while the first pending attempt is another
    obtain ⟨b, mem, waits⟩ : ∃ b ∈ ((twoMissing.step (.init 7 [1, 0])).step (.init 7 [2, 1, 0])).chain,
        b.fetchPendingFromPeerRpcId 7 = some 1 := ⟨_, mem_cons_of_mem _ mem_cons_self, rfl⟩
    cases (two.error mem waits .dataUnavailable).2 tracked

end Fetching

end MinaRust.TransitionFrontier
