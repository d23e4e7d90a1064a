/-
  The pool of transactions to gossip next to the transaction pool
  (`transaction_pool_reducer.rs`).

  The reducer changes the transaction pool with three actions and the gossip pool `dpool` by
  separate code in two of them.  `Mirrors` says that the two agree.
-/
import MinaRust.Core.PoolIndex
import MinaRust.TransactionPool.Apply

set_option linter.unusedSectionVars false

namespace MinaRust.TransactionPool.GossipPool

open List

open DistributedPool (Indexed)

structure TransactionState (Hash : Type) where
  time : ℕ
  hash : Hash
  deriving DecidableEq, Repr

structure State (Cmd A Hash R Fp Vk : Type) [LinearOrder Hash] where
  pool : BatchedPool Cmd A Hash R Fp Vk
  dpool : DistributedPool (TransactionState Hash) Hash

variable {Cmd A Hash R Fp Vk : Type} [PoolCommand Cmd A Hash R]
  [VkCommand Cmd A Fp Vk] [DecidableEq Cmd] [DecidableEq A] [LinearOrder Hash]
  [LinearOrder R] [DecidableEq Fp]

/-- A call that returns an error leaves the transaction pool half changed; the pool it leaves is
    given with the action, and may be any. -/
inductive Action (Cmd A Hash R Fp Vk : Type) [DecidableEq A] where
  | bestTipChangedWithAccounts (it : Iteration Cmd A Hash R)
      (accounts : A → Option IndexedPool.AccountView)
      (left : BatchedPool Cmd A Hash R Fp Vk)
  | applyVerifiedDiffWithAccounts (diff : VerifiedDiff Cmd A)
      (left : BatchedPool Cmd A Hash R Fp Vk)
  | applyTransitionFrontierDiffWithAccounts (it : Iteration Cmd A Hash R)
      (change : BestTipChange Cmd A) (left : BatchedPool Cmd A Hash R Fp Vk)

def State.new (slotTxEnd : Option ℕ) (poolMaxSize : ℕ) : State Cmd A Hash R Fp Vk where
  pool := {
    pool := { IndexedPool.new with slotTxEnd := slotTxEnd }
    locallyGeneratedUncommitted := ∅
    locallyGeneratedCommitted := ∅
    poolMaxSize := poolMaxSize
    verificationKeyTable := .empty
    remainingInBatch := 0
    currentBatch := 0 }
  dpool := .empty

def ungossip (dpool : DistributedPool (TransactionState Hash) Hash) (hashes : List Hash) :
    DistributedPool (TransactionState Hash) Hash :=
  hashes.foldl (fun dpool h => (dpool.remove h).2) dpool

def gossip (time : ℕ) (dpool : DistributedPool (TransactionState Hash) Hash) (cmds : List Cmd) :
    DistributedPool (TransactionState Hash) Hash :=
  (cmds.map fun cmd => ⟨time, hash cmd⟩).foldl (fun dpool e => dpool.insert TransactionState.hash e) dpool

def reduce (s : State Cmd A Hash R Fp Vk) :
    Action Cmd A Hash R Fp Vk → Except Panic (State Cmd A Hash R Fp Vk)
  | .bestTipChangedWithAccounts it accounts left =>
    match s.pool.onNewBestTip it accounts with
    | .ok (t, dropped) => .ok ⟨{ s.pool with toTransactionPool := t }, ungossip s.dpool (dropped.map hash)⟩
    | .error (.err _) => .ok ⟨left, s.dpool⟩
    | .error (.panic e) => .error e
  | .applyVerifiedDiffWithAccounts diff left =>
    match s.pool.apply diff with
    | .ok (t, r) =>
      match r.decision with
      | .accept => .ok ⟨t, gossip diff.time (ungossip s.dpool r.dropped) r.accepted⟩
      | .reject => .ok ⟨t, s.dpool⟩
    | .error (.stop (.panic e)) => .error e
    | .error _ => .ok ⟨left, s.dpool⟩
  | .applyTransitionFrontierDiffWithAccounts it change left =>
    match s.pool.handleTransitionFrontierDiff it change with
    | .ok t => .ok ⟨{ s.pool with toTransactionPool := t }, s.dpool⟩
    | .error (.err _) => .ok ⟨left, s.dpool⟩
    | .error (.panic e) => .error e

def run (s : State Cmd A Hash R Fp Vk) (actions : List (Action Cmd A Hash R Fp Vk)) :
    Except Panic (State Cmd A Hash R Fp Vk) :=
  actions.foldlM reduce s

/-! ## The invariant -/

def Stays (dpool : DistributedPool (TransactionState Hash) Hash) (t : BatchedPool Cmd A Hash R Fp Vk) : Prop :=
  ∀ i e, dpool.list.get i = some e → ∃ c : Cmd, hash c = e.hash ∧ t.pool.member c

/-- **The gossip pool mirrors the transaction pool.** -/
structure Mirrors (s : State Cmd A Hash R Fp Vk) : Prop where
  once : ∀ i j e e', s.dpool.list.get i = some e → s.dpool.list.get j = some e' → e.hash = e'.hash → i = j
  inverse : ∀ h i, s.dpool.byKey.get h = some i ↔ ∃ e, s.dpool.list.get i = some e ∧ e.hash = h
  member : Stays s.dpool s.pool

variable {s s' : State Cmd A Hash R Fp Vk} {a : Action Cmd A Hash R Fp Vk}
  {dpool : DistributedPool (TransactionState Hash) Hash} {t : BatchedPool Cmd A Hash R Fp Vk}

theorem Mirrors.of_indexed (indexed : Indexed TransactionState.hash s.dpool) (member : Stays s.dpool s.pool) :
    Mirrors s where
  once i j e e' here there eq := by
    have first := (indexed.byKey e.hash i).2 ⟨e, here, rfl⟩
    have second := (indexed.byKey e.hash j).2 ⟨e', there, eq.symm⟩
    exact Option.some.inj (first.symm.trans second)
  inverse := indexed.byKey
  member := member

theorem stays_iff (indexed : Indexed TransactionState.hash dpool) :
    Stays dpool t ↔ ∀ h e, dpool.get h = some e → ∃ c : Cmd, hash c = h ∧ t.pool.member c := by
  constructor
  · intro stays h e found
    obtain ⟨i, stored, rfl⟩ := indexed.get_eq_some.1 found
    exact stays i e stored
  · intro found i e stored
    exact found e.hash e (indexed.get_eq_some.2 ⟨i, stored, rfl⟩)

/-! ## The steps -/

/-- No gossiped transaction leaves the transaction pool in a step that leaves `dpool` as
    it is. -/
def Action.Keeps (s : State Cmd A Hash R Fp Vk) : Action Cmd A Hash R Fp Vk → Prop
  | .bestTipChangedWithAccounts it accounts left =>
    ∀ e, s.pool.onNewBestTip it accounts = .error (.err e) → Stays s.dpool left
  | .applyVerifiedDiffWithAccounts diff left =>
    (∀ t r, s.pool.apply diff = .ok (t, r) → r.decision = .reject → Stays s.dpool t) ∧
      ∀ e, s.pool.apply diff = .error e → (∀ p, e ≠ .stop (.panic p)) → Stays s.dpool left
  | .applyTransitionFrontierDiffWithAccounts it change left =>
    (∀ t, s.pool.handleTransitionFrontierDiff it change = .ok t →
      Stays s.dpool { s.pool with toTransactionPool := t }) ∧
    ∀ e, s.pool.handleTransitionFrontierDiff it change = .error (.err e) → Stays s.dpool left

/-- The additions of a diff report what they take out of the pool. -/
def Action.Reports (s : State Cmd A Hash R Fp Vk) : Action Cmd A Hash R Fp Vk → Prop
  | .applyVerifiedDiffWithAccounts diff _ => diff.Reports s.pool.pool
  | _ => True

/-- **What a step does**: a new best tip takes what left the pool out of `dpool`, and an
    accepted diff is put into it. -/
theorem reduce_cases (step : reduce s a = .ok s') :
    (∃ t dropped, IndexedPool.Drops s.pool.pool t.pool dropped ∧ a.Keeps s ∧
        s' = ⟨t, ungossip s.dpool (dropped.map hash)⟩) ∨
      (∃ diff left t r, a = .applyVerifiedDiffWithAccounts diff left ∧ s.pool.apply diff = .ok (t, r) ∧
        a.Keeps s ∧ s' = ⟨t, gossip diff.time (ungossip s.dpool r.dropped) r.accepted⟩) ∨
      s'.dpool = s.dpool ∧ (a.Keeps s ↔ Stays s.dpool s'.pool) := by
  cases a with
  | bestTipChangedWithAccounts it accounts left =>
    unfold reduce at step
    dsimp only at step
    split at step
    · next t dropped call =>
      cases step
      refine .inl ⟨_, dropped, TransactionPool.onNewBestTip_drops call, fun e failed => ?_, rfl⟩
      cases call.symm.trans failed
    · next e call =>
      cases step
      exact .inr (.inr ⟨rfl, fun keeps => keeps e call, fun stays _ _ => stays⟩)
    · cases step
  | applyVerifiedDiffWithAccounts diff left =>
    unfold reduce at step
    dsimp only at step
    split at step
    · next t r call =>
      split at step
      · next accept =>
        cases step
        refine .inr (.inl ⟨diff, left, t, r, rfl, call, ⟨fun t' r' call' reject => ?_, fun e failed => ?_⟩, rfl⟩)
        · cases call.symm.trans call'
          cases accept.symm.trans reject
        · cases call.symm.trans failed
      · next reject =>
        cases step
        refine .inr (.inr ⟨rfl, fun keeps => keeps.1 t r call reject, fun stays =>
          ⟨fun t' r' call' _ => ?_, fun e failed => ?_⟩⟩)
        · cases call.symm.trans call'
          exact stays
        · cases call.symm.trans failed
    · cases step
    · next e noPanic call =>
      cases step
      refine .inr (.inr ⟨rfl, fun keeps => keeps.2 e call noPanic, fun stays =>
        ⟨fun t' r' call' => ?_, fun _ _ _ => stays⟩⟩)
      cases call.symm.trans call'
  | applyTransitionFrontierDiffWithAccounts it change left =>
    unfold reduce at step
    dsimp only at step
    split at step
    · next t call =>
      cases step
      refine .inr (.inr ⟨rfl, fun keeps => keeps.1 t call, fun stays =>
        ⟨fun t' call' => ?_, fun e failed => ?_⟩⟩)
      · cases call.symm.trans call'
        exact stays
      · cases call.symm.trans failed
    · next e call =>
      cases step
      refine .inr (.inr ⟨rfl, fun keeps => keeps.2 e call, fun stays =>
        ⟨fun t' call' => ?_, fun _ _ => stays⟩⟩)
      cases call.symm.trans call'
    · cases step

/-- What is known of every state of a run that mirrors. -/
structure Inv (s : State Cmd A Hash R Fp Vk) : Prop where
  indexed : Indexed TransactionState.hash s.dpool
  member : Stays s.dpool s.pool

theorem Inv.mirrors (h : Inv s) : Mirrors s := .of_indexed h.indexed h.member

theorem Inv.new (slotTxEnd : Option ℕ) (poolMaxSize : ℕ) :
    Inv (State.new slotTxEnd poolMaxSize : State Cmd A Hash R Fp Vk) where
  indexed := .empty
  member _ _ stored := by cases stored

theorem Inv.bestTip (h : Inv s) {dropped : List Cmd} (drops : IndexedPool.Drops s.pool.pool t.pool dropped) :
    Inv (⟨t, ungossip s.dpool (dropped.map hash)⟩ : State Cmd A Hash R Fp Vk) := by
  obtain ⟨indexed, -, get⟩ := h.indexed.foldl_remove (dropped.map hash)
  refine ⟨indexed, (stays_iff indexed).2 fun key e found => ?_⟩
  rw [get] at found
  split at found
  · cases found
  · next kept =>
    obtain ⟨c, rfl, mem⟩ := (stays_iff h.indexed).1 h.member key e found
    refine ⟨c, rfl, (drops.member c).2 ⟨mem, fun gone => kept (mem_map_of_mem gone)⟩⟩

theorem Inv.accepted (h : Inv s) {diff : VerifiedDiff Cmd A} {t : BatchedPool Cmd A Hash R Fp Vk}
    {r : Applied Cmd Hash} (reports : diff.Reports s.pool.pool) (call : s.pool.apply diff = .ok (t, r))
    (small : s.dpool.counter < 2 ^ 64)
    (few : (gossip diff.time (ungossip s.dpool r.dropped) r.accepted).counter < 2 ^ 64 - 1) :
    Inv (⟨t, gossip diff.time (ungossip s.dpool r.dropped) r.accepted⟩ : State Cmd A Hash R Fp Vk) := by
  obtain ⟨nodup, accepted, stays⟩ := BatchedPool.applied_members reports call
  obtain ⟨indexed, count, get⟩ := h.indexed.foldl_remove r.dropped
  -- an accepted command was not in the transaction pool, so it is not gossiped
  have new : ∀ e ∈ r.accepted.map fun cmd => (⟨diff.time, hash cmd⟩ : TransactionState Hash),
      (ungossip s.dpool r.dropped).get e.hash = none := by
    intro e mem
    obtain ⟨c, listed, rfl⟩ := mem_map.1 mem
    refine (get _).trans ((if_neg (accepted c listed).2.2).trans ?_)
    by_contra found
    obtain ⟨e, found⟩ := Option.ne_none_iff_exists'.1 found
    obtain ⟨c', eq, mem'⟩ := (stays_iff h.indexed).1 h.member _ e found
    cases PoolCommand.hash_injective eq
    exact (accepted c listed).1 mem'
  have keys : ((r.accepted.map fun cmd => (⟨diff.time, hash cmd⟩ : TransactionState Hash)).map
      TransactionState.hash).Nodup := by
    rw [map_map]
    exact nodup
  obtain ⟨indexed', found'⟩ := indexed.foldl_insert _ keys new (by omega) few
  refine ⟨indexed', (stays_iff indexed').2 fun key e found => ?_⟩
  rcases found' key e found with before | ⟨mem, rfl⟩
  · rw [get] at before
    split at before
    · cases before
    · next kept =>
      obtain ⟨c, rfl, mem⟩ := (stays_iff h.indexed).1 h.member key e before
      exact ⟨c, rfl, stays c mem kept⟩
  · obtain ⟨c, listed, rfl⟩ := mem_map.1 mem
    exact ⟨c, rfl, (accepted c listed).2.1⟩

/-- **One step**: the pools agree again exactly when no gossiped command left in a step that
    does not touch `dpool`. -/
theorem step_mirrors (h : Inv s) (reports : a.Reports s) (small : s.dpool.counter < 2 ^ 64)
    (few : s'.dpool.counter < 2 ^ 64 - 1) (step : reduce s a = .ok s') :
    (a.Keeps s → Inv s') ∧ (Mirrors s' → a.Keeps s) := by
  rcases reduce_cases step with ⟨t, dropped, drops, keeps, rfl⟩ | ⟨diff, left, t, r, rfl, call, keeps, rfl⟩ |
    ⟨same, keeps⟩
  · exact ⟨fun _ => h.bestTip drops, fun _ => keeps⟩
  · exact ⟨fun _ => h.accepted reports call small few, fun _ => keeps⟩
  · rw [keeps, ← same]
    exact ⟨fun stays => ⟨same ▸ h.indexed, stays⟩, fun mirrors => mirrors.member⟩

/-! ## Runs -/

instance : VkCommand Transfer Unit ℕ ℕ where
  extractVks _ := []
  vkHash := id

def fresh : State Transfer Unit ℕ ℕ ℕ ℕ := .new none 3000

/-- A diff received from a peer; the sender has the nonce `0` and a balance of `100`. -/
def received (cmds : List Transfer) : Action Transfer Unit ℕ ℕ ℕ ℕ :=
  .applyVerifiedDiffWithAccounts
    { time := 0, now := 0, globalSlotSinceGenesis := 0, currentGlobalSlot := 0, list := cmds
      accounts := fun _ => some ⟨0, 100, true⟩, isSenderLocal := false } fresh.pool

/-- A new block with the first payment; the sender then has the nonce `1`. -/
def included : Action Transfer Unit ℕ ℕ ℕ ℕ :=
  .applyTransitionFrontierDiffWithAccounts .asStored
    { globalSlotSinceGenesis := 0, currentGlobalSlot := 0, newCommands := [.first], removedCommands := []
      accountIds := fun _ => true, accounts := fun _ => some ⟨1, 99, true⟩
      uncommitted := fun _ => some ⟨1, 99, true⟩ } fresh.pool

def newTip : Action Transfer Unit ℕ ℕ ℕ ℕ :=
  .bestTipChangedWithAccounts .asStored (fun _ => some ⟨1, 99, true⟩) fresh.pool

end MinaRust.TransactionPool.GossipPool
