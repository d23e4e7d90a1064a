/-
  The transaction pool of a node, and what it does when the best tip changes
  (`TransactionPool` and `handle_transition_frontier_diff` of `transaction_pool.rs`).

  The orders in which hash maps are gone through are the `Iteration`; the accounts of the
  best tip are given by what the pool reads of them.
-/
import Mathlib.Data.List.Sort
import Mathlib.Data.Prod.Lex
import MinaRust.TransactionPool.IndexedPool
import MinaRust.TransactionPool.VkRefcountTable

set_option linter.dupNamespace false

namespace MinaRust.TransactionPool

/-- When a local command was added, and its batch. -/
structure Generated where
  time : ℕ
  batch : ℕ
  deriving DecidableEq, Repr

/-- The verification keys that a command sets. -/
class VkCommand (Cmd : Type) (A Fp Vk : outParam Type) where
  extractVks : Cmd → List (A × Vk)
  vkHash : Vk → Fp

export VkCommand (extractVks vkHash)

structure TransactionPool (Cmd A Hash R Fp Vk : Type) where
  pool : IndexedPool Cmd A Hash R
  locallyGeneratedUncommitted : HashMap Cmd Generated
  locallyGeneratedCommitted : HashMap Cmd Generated
  poolMaxSize : ℕ
  verificationKeyTable : VkRefcountTable A Fp Vk

variable {Cmd A Hash R Fp Vk : Type} [PoolCommand Cmd A Hash R]
  [VkCommand Cmd A Fp Vk] [DecidableEq Cmd] [DecidableEq A] [LinearOrder Hash]
  [LinearOrder R] [DecidableEq Fp]

/-- The orders in which the loops of the pool meet the elements of its hash maps. -/
structure Iteration (Cmd A Hash R : Type) [DecidableEq A] where
  senders : IndexedPool Cmd A Hash R → List (Sigma fun _ : A => List Cmd × ℕ)
  senders_perm : ∀ p, (senders p).Perm p.allBySender.entries
  expired : IndexedPool Cmd A Hash R → ℕ → List Cmd
  expired_perm : ∀ p slot, (expired p slot).Perm (p.expired slot)

/-- The loops go through the hash maps as they are stored. -/
def Iteration.asStored : Iteration Cmd A Hash R where
  senders p := p.allBySender.entries
  senders_perm _ := .refl _
  expired p slot := p.expired slot
  expired_perm _ _ := .refl _

def AccountView.empty : IndexedPool.AccountView := ⟨0, 0, true⟩

structure BestTipDiff (Cmd : Type) where
  newCommands : List Cmd
  removedCommands : List Cmd
  deriving DecidableEq, Repr

/-- The diff and the accounts that `handle_transition_frontier_diff` is called with. -/
structure BestTipChange (Cmd A : Type) extends BestTipDiff Cmd where
  globalSlotSinceGenesis : ℕ
  currentGlobalSlot : ℕ
  accountIds : A → Bool
  accounts : A → Option IndexedPool.AccountView
  uncommitted : A → Option IndexedPool.AccountView

def BestTipChange.committed (d : BestTipChange Cmd A) : List Cmd :=
  d.newCommands.filter fun c => c ∉ d.removedCommands

def BestTipChange.rolledBack (d : BestTipChange Cmd A) : List Cmd :=
  d.removedCommands.filter fun c => c ∉ d.newCommands

namespace TransactionPool

/-! ## Verification keys -/

def liftPanic {α : Type} : Except Panic α → Except Stop α
  | .ok a => .ok a
  | .error e => .error (.panic e)

variable (globalSlotSinceGenesis currentGlobalSlot : ℕ) (it : Iteration Cmd A Hash R) (d : BestTipChange Cmd A)
  (t : TransactionPool Cmd A Hash R Fp Vk) (cmds : List Cmd)

/-- `increment_list` and `increment_hashed` on the table; bug conditions are only logged. -/
def incrementVks : Except Stop (TransactionPool Cmd A Hash R Fp Vk) := do
  let (table, _) ← liftPanic
    (VkRefcountTable.incrementHashed (vkHash Cmd) extractVks cmds (t.verificationKeyTable, []))
  return { t with verificationKeyTable := table }

def decrementVks : Except Stop (TransactionPool Cmd A Hash R Fp Vk) := do
  let (table, _) ← liftPanic
    (VkRefcountTable.decrementHashed (vkHash Cmd) extractVks cmds (t.verificationKeyTable, []))
  return { t with verificationKeyTable := table }

/-! ## The size of the pool -/

variable (cmd : Cmd)

def hasSufficientFee : Bool :=
  match t.pool.minFee with
  | none => true
  | some minFee => if t.poolMaxSize ≤ t.pool.size then minFee < feePerWu cmd else true

/-- The loop of `drop_until_below_max_size`; every round drops a command, so there are at
    most `size` of them. -/
def dropUntil (poolMaxSize : ℕ) : ℕ → IndexedPool Cmd A Hash R →
    Except Stop (IndexedPool Cmd A Hash R × List Cmd)
  | 0, p => .ok (p, [])
  | rounds + 1, p =>
    if poolMaxSize < p.size then do
      let (p, dropped) ← p.removeLowestFee
      myAssert (dropped ≠ [])
      let (p, rest) ← dropUntil poolMaxSize rounds p
      return (p, dropped ++ rest)
    else .ok (p, [])

def dropUntilBelowMaxSize (poolMaxSize : ℕ) (p : IndexedPool Cmd A Hash R) :
    Except Stop (IndexedPool Cmd A Hash R × List Cmd) :=
  dropUntil poolMaxSize p.size p

/-! ## A change of the best tip -/

def uncommit : TransactionPool Cmd A Hash R Fp Vk :=
  match t.locallyGeneratedCommitted.lookup cmd with
  | some timeAdded => { t with
      locallyGeneratedCommitted := t.locallyGeneratedCommitted.erase cmd
      locallyGeneratedUncommitted := t.locallyGeneratedUncommitted.insert cmd timeAdded }
  | none => t

/-- One round over the rolled back commands: the pool, and `dropped_backtrack` so far. -/
def backtrackStep (s : TransactionPool Cmd A Hash R Fp Vk × List Cmd) (cmd : Cmd) :
    Except Stop (TransactionPool Cmd A Hash R Fp Vk × List Cmd) := do
  let t := s.1.uncommit cmd
  let pool ← t.pool.addFromBacktrack globalSlotSinceGenesis currentGlobalSlot cmd
  let (pool, droppedSeq) ← dropUntilBelowMaxSize t.poolMaxSize pool
  return ({ t with pool := pool }, s.2 ++ droppedSeq)

def commitStep : Except Stop (TransactionPool Cmd A Hash R Fp Vk) := do
  let t ← t.decrementVks [cmd]
  match t.locallyGeneratedUncommitted.lookup cmd with
  | some data => do
    let old := t.locallyGeneratedCommitted.lookup cmd
    myAssert (old = none)
    return { t with
      locallyGeneratedUncommitted := t.locallyGeneratedUncommitted.erase cmd
      locallyGeneratedCommitted := t.locallyGeneratedCommitted.insert cmd data }
  | none => return t

def removeCmd : Except Stop (TransactionPool Cmd A Hash R Fp Vk) := do
  let t ← t.decrementVks [cmd]
  ensure (.panic .assertion) (cmd ∈ t.locallyGeneratedUncommitted)
  return { t with locallyGeneratedUncommitted := t.locallyGeneratedUncommitted.erase cmd }

def readdStep (uncommitted : A → Option IndexedPool.AccountView) (t : TransactionPool Cmd A Hash R Fp Vk)
    (cmd : Cmd) : Except Stop (TransactionPool Cmd A Hash R Fp Vk) :=
  if cmd ∈ t.locallyGeneratedCommitted then .ok t
  else if t.hasSufficientFee cmd = false then t.removeCmd cmd
  else match uncommitted (feePayer cmd) with
    | none => t.removeCmd cmd
    | some account =>
      match t.pool.addFromGossipExn globalSlotSinceGenesis currentGlobalSlot cmd account.nonce
        account.liquidBalance with
      | .ok (pool, _, _) => { t with pool := pool }.incrementVks [cmd]
      | .error (.err _) => t.removeCmd cmd
      | .error (.panic e) => .error (.panic e)

def expireStep : Except Stop (TransactionPool Cmd A Hash R Fp Vk) := do
  let t ← t.decrementVks [cmd]
  return { t with locallyGeneratedUncommitted := t.locallyGeneratedUncommitted.erase cmd }

def getAccount (accountIds : A → Bool) (accounts : A → Option IndexedPool.AccountView)
    (id : A) : Option IndexedPool.AccountView :=
  match accounts id with
  | some account => some account
  | none => if accountIds id then some AccountView.empty else none

/-- What the first part of `handle_transition_frontier_diff` hands to the second. -/
structure Moved (Cmd A Hash R Fp Vk : Type) where
  pool : TransactionPool Cmd A Hash R Fp Vk
  droppedCommitConflicts : List Cmd
  locallyGeneratedDropped : List Cmd

def backtrack : Except Stop (TransactionPool Cmd A Hash R Fp Vk × List Cmd) :=
  d.rolledBack.foldlM (backtrackStep d.globalSlotSinceGenesis d.currentGlobalSlot) (t, [])

/-- `handle_transition_frontier_diff` up to the bookkeeping of committed commands. -/
def moveToBestTip : Except Stop (Moved Cmd A Hash R Fp Vk) := do
  let t ← t.incrementVks d.committed
  let t ← t.decrementVks d.rolledBack
  let (t, droppedBacktrack) ← t.backtrack d
  let t ← t.decrementVks droppedBacktrack
  let locallyGeneratedDropped := droppedBacktrack.filter fun c => c ∈ t.locallyGeneratedUncommitted
  let (pool, droppedCommands) ← t.pool.revalidate d.accountIds (getAccount d.accountIds d.accounts)
    (it.senders t.pool)
  let t := { t with pool := pool }
  let isNew := fun c : Cmd => decide (hash c ∈ d.committed.map hash)
  let t ← (droppedCommands.filter isNew).foldlM commitStep t
  return ⟨t, droppedCommands.filter fun c => !isNew c, locallyGeneratedDropped⟩

/-- The filter that would take commit conflicts out of the uncommitted commands is lazy and
    never run. -/
def handleTransitionFrontierDiff : Except Stop (TransactionPool Cmd A Hash R Fp Vk) := do
  let ⟨t, _, locallyGeneratedDropped⟩ ← t.moveToBestTip it d
  let t ← locallyGeneratedDropped.foldlM
    (readdStep d.globalSlotSinceGenesis d.currentGlobalSlot d.uncommitted) t
  let (pool, expiredCommands) ← t.pool.removeExpired (it.expired t.pool d.globalSlotSinceGenesis)
  expiredCommands.foldlM expireStep { t with pool := pool }

/-! ## Rebroadcasting -/

/-- The order in which commands are sent again: by batch, nonce and hash. -/
def RebroadcastLe (a b : Sigma fun _ : Cmd => Generated) : Prop :=
  toLex (a.2.batch, toLex (applicableAtNonce a.1, hash a.1)) ≤
    toLex (b.2.batch, toLex (applicableAtNonce b.1, hash b.1))

instance (a b : Sigma fun _ : Cmd => Generated) : Decidable (RebroadcastLe a b) :=
  inferInstanceAs (Decidable (toLex _ ≤ toLex _))

/-- `get_rebroadcastable`: the pool without the commands that timed out, and the batches to
    send. -/
def getRebroadcastable (hasTimedOut : ℕ → Bool) (t : TransactionPool Cmd A Hash R Fp Vk) :
    TransactionPool Cmd A Hash R Fp Vk × List (List Cmd) :=
  let t := { t with
    locallyGeneratedUncommitted := t.locallyGeneratedUncommitted.retain fun _ g => !hasTimedOut g.time
    locallyGeneratedCommitted := t.locallyGeneratedCommitted.retain fun _ g => !hasTimedOut g.time }
  let rebroadcastable := t.locallyGeneratedUncommitted.entries.insertionSort RebroadcastLe
  (t, (rebroadcastable.splitBy fun a b => a.2.batch = b.2.batch).map fun group => group.map Sigma.fst)

end TransactionPool
end MinaRust.TransactionPool
