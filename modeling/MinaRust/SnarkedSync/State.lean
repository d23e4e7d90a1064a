/-
  The sync of a snarked ledger (`transition_frontier/sync/ledger/snarked`).

  The node asks peers for the number of accounts and the hash of the smallest subtree that
  holds them, then fetches this subtree from the top: child hashes, and from a certain depth
  on the accounts.

  An event comes from outside the sync; what the reducer and the effects dispatch for an
  answer is one step.  An action that is not enabled changes nothing.
-/
import MinaRust.Lib.OrdMap
import MinaRust.Ledger.SyncService

namespace MinaRust.Ledger

/-- What addresses are compared by: the bytes, then the length. -/
def Address.key (a : Address) : ℕ ×ₗ ℕ := toLex (a.inner.toNat, a.length)

theorem Address.key_injective : Function.Injective Address.key := by
  rintro ⟨ia, la⟩ ⟨ib, lb⟩ same
  obtain ⟨bytes, length⟩ := Prod.mk.inj (toLex.injective same)
  cases BitVec.eq_of_toNat_eq bytes
  cases length
  rfl

/-- `Ord` of addresses. -/
instance : LinearOrder Address where
  le a b := a.key ≤ b.key
  lt a b := a.key < b.key
  le_refl _ := le_refl _
  le_trans _ _ _ := le_trans
  lt_iff_le_not_ge _ _ := lt_iff_le_not_ge
  le_antisymm _ _ h h' := Address.key_injective (le_antisymm h h')
  le_total _ _ := le_total _ _
  toDecidableLE a b := inferInstanceAs (Decidable (a.key ≤ b.key))
  toDecidableLT a b := inferInstanceAs (Decidable (a.key < b.key))
  toDecidableEq := inferInstance

end MinaRust.Ledger

namespace MinaRust.SnarkedSync

open Ledger

def ACCOUNT_SUBTREE_HEIGHT : ℕ := 6

inductive PeerLedgerQueryError where
  | timeout
  | disconnected
  | dataUnavailable
  deriving DecidableEq, Repr

/-- An account of an answer is `none` when it does not decode. -/
inductive PeerLedgerQueryResponse (A F : Type) where
  | childHashes (left right : LedgerHash F)
  | childAccounts (accounts : List (Option A))
  | numAccounts (count : ℕ) (contentsHash : LedgerHash F)

inductive PeerRpcState where
  | init
  | pending (rpcId : ℕ)
  | error (rpcId : ℕ) (error : PeerLedgerQueryError)
  | success (rpcId : ℕ)
  deriving DecidableEq, Repr

namespace PeerRpcState

def rpcId : PeerRpcState → Option ℕ
  | init => none
  | pending rpcId => some rpcId
  | error rpcId _ => some rpcId
  | success rpcId => some rpcId

def isPending : PeerRpcState → Bool
  | pending _ => true
  | _ => false

def isError : PeerRpcState → Bool
  | error _ _ => true
  | _ => false

end PeerRpcState

structure LedgerAddressQueryPending (P F : Type) [LinearOrder P] where
  expectedHash : LedgerHash F
  attempts : OrdMap P PeerRpcState

/-- The queue of `MerkleTreeSyncPending`: addresses with the hashes that they should have. -/
abbrev Queue (F : Type) := OrdMap Address (LedgerHash F)

/-- The queries of `MerkleTreeSyncPending` that are under way. -/
abbrev Pending (P F : Type) [LinearOrder P] := OrdMap Address (LedgerAddressQueryPending P F)

inductive SnarkedState (P F : Type) [LinearOrder P] where
  | numAccountsPending (target : LedgerHash F) (attempts : OrdMap P PeerRpcState)
  | numAccountsSuccess (target : LedgerHash F) (numAccounts : ℕ) (contentsHash : LedgerHash F)
  | merkleTreeSyncPending (target : LedgerHash F) (queue : Queue F) (pending : Pending P F)
  | merkleTreeSyncSuccess (target : LedgerHash F)
  | success (target : LedgerHash F)

structure Sync (P A I F : Type) [LinearOrder P] where
  state : SnarkedState P F
  ledger : MaskImpl A I F

inductive Event (P A F : Type) where
  /-- `PeerQueryNumAccountsInit`, and `PeerQueryNumAccountsRetry`, which does the same. -/
  | numAccountsInit (peer : P)
  | numAccountsPending (peer : P) (rpcId : ℕ)
  | numAccountsError (peer : P) (rpcId : ℕ) (error : PeerLedgerQueryError)
  | numAccountsAnswer (peer : P) (rpcId : ℕ) (response : PeerLedgerQueryResponse A F)
  | addressInit (address : Address) (peer : P)
  | addressRetry (address : Address) (peer : P)
  | addressPending (address : Address) (peer : P) (rpcId : ℕ)
  | addressError (peer : P) (rpcId : ℕ) (error : PeerLedgerQueryError)
  | addressAnswer (peer : P) (rpcId : ℕ) (response : PeerLedgerQueryResponse A F)
  /-- `Success`, after `MerkleTreeSyncSuccess`. -/
  | success

variable {P A I F : Type} [LinearOrder P] [DecidableEq I] [DecidableEq F]

/-! ## The number of accounts -/

/-- Whether `attempts` has a request of `peer` under way with this id. -/
def awaits (attempts : OrdMap P PeerRpcState) (peer : P) (rpcId : ℕ) : Bool :=
  attempts.get peer = some (.pending rpcId)

/-- `MerkleTreeSyncPending`: the first query is for the node above all accounts. -/
def merkleTreeSyncPending (target : LedgerHash F) (numAccounts : ℕ) (contentsHash : LedgerHash F) :
    Except SyncPanic (SnarkedState P F) := do
  let height ← treeHeightForNumAccounts numAccounts
  let firstNodeAddress := Address.first (LEDGER_DEPTH - height)
  return .merkleTreeSyncPending target (OrdMap.empty.insert firstNodeAddress contentsHash) .empty

section
variable (V : TreeVersion A I F)

variable (pending : Pending P F) (s : Sync P A I F) (target : LedgerHash F)

/-- An answer is accepted when the completed tree has the hash of the target. -/
def numAccountsReceived (attempts : OrdMap P PeerRpcState) (numAccounts : ℕ) (contentsHash : LedgerHash F) :
    Except SyncPanic (SnarkedState P F) := do
  let actualHash ← completeNumAccountsTreeWithEmpties V contentsHash numAccounts
  if actualHash = some target then merkleTreeSyncPending target numAccounts contentsHash
  else return .numAccountsPending target attempts

/-! ## Addresses -/

/-- Addresses that were being queried and need to be retried. -/
def syncAddressRetryIter : List Address :=
  (pending.entries.filter fun e => e.2.attempts.entries.all fun s => s.2.isError).map Prod.fst

variable (queue : Queue F) (address : Address) (peer : P) (rpcId : ℕ)

def peerAddressQueryGet : Option (Address × LedgerAddressQueryPending P F) :=
  pending.entries.find? fun e => (e.2.attempts.get peer).bind PeerRpcState.rpcId = some rpcId

/-- The query that an answer or an error is for: its request is under way. -/
def queryOf : Option (Address × LedgerAddressQueryPending P F) :=
  (peerAddressQueryGet pending peer rpcId).filter fun e => (e.2.attempts.get peer).any PeerRpcState.isPending

def setAttempt (s : PeerRpcState) : Pending P F :=
  pending.modify address fun q => { q with attempts := q.attempts.insert peer s }

def finish (pending : Pending P F) : SnarkedState P F :=
  if queue.entries = [] ∧ pending.entries = [] then .merkleTreeSyncSuccess target
  else .merkleTreeSyncPending target queue pending

/-- The child of an accepted node is queued unless the ledger has the hash already. -/
def enqueue (hash previous : LedgerHash F) : Queue F :=
  if hash ≠ previous then queue.insert address hash else queue

/-- The effects of `ChildHashesReceived`, with `ChildHashesAccepted` or
    `ChildHashesRejected`. -/
def childHashesReceived (pending : Pending P F) (address : Address) (expected left right : LedgerHash F) :
    Except SyncPanic (Sync P A I F) :=
  let rejected := { s with state := .merkleTreeSyncPending target queue pending }
  if LEDGER_DEPTH - ACCOUNT_SUBTREE_HEIGHT ≤ address.length then .ok rejected
  else match left.toField, right.toField, expected.toField with
    | some leftHash, some rightHash, some parentHash =>
      if hashNodeAtDepth V address.length leftHash rightHash ≠ parentHash then .ok rejected
      else do
        let ((previousLeft, previousRight), ledger) ← childHashesGet V address s.ledger
        let pending := pending.remove address
        let queue := enqueue queue address.childLeft left (.field previousLeft)
        let queue := enqueue queue address.childRight right (.field previousRight)
        return ⟨finish target queue pending, ledger⟩
    | _, _, _ => .ok rejected

/-- The accounts stay in the ledger in either case. -/
def childAccountsReceived (pending : Pending P F) (address : Address) (expected : LedgerHash F)
    (accounts : List (Option A)) : Except SyncPanic (Sync P A I F) := do
  let (computedHash, ledger) ← accountsSet V address accounts s.ledger
  if expected ≠ .field computedHash then return ⟨.merkleTreeSyncPending target queue pending, ledger⟩
  else do
    -- `compute_snarked_ledger_hashes`
    let (_, ledger) ← innerHash V .root ledger
    if 0 < accounts.length then return ⟨finish target queue (pending.remove address), ledger⟩
    else return ⟨.merkleTreeSyncPending target queue pending, ledger⟩

/-- `PeerQueryAddressSuccess`: the attempt is successful before the answer is looked at. -/
def addressAnswer (pending : Pending P F) (peer : P) (rpcId : ℕ) (response : PeerLedgerQueryResponse A F) :
    Except SyncPanic (Sync P A I F) :=
  match queryOf pending peer rpcId with
  | none => .ok s
  | some (address, q) =>
    let pending := setAttempt pending address peer (.success rpcId)
    match response with
    | .childHashes left right => childHashesReceived V s target queue pending address q.expectedHash left right
    | .childAccounts accounts => childAccountsReceived V s target queue pending address q.expectedHash accounts
    | .numAccounts _ _ => .ok { s with state := .merkleTreeSyncPending target queue pending }

/-! ## Steps -/

def step (e : Event P A F) : Except SyncPanic (Sync P A I F) :=
  match s.state, e with
  | .numAccountsPending target attempts, .numAccountsInit peer =>
    .ok { s with state := .numAccountsPending target (attempts.insert peer .init) }
  | .numAccountsPending target attempts, .numAccountsPending peer rpcId =>
    if attempts.get peer = some .init then
      .ok { s with state := .numAccountsPending target (attempts.insert peer (.pending rpcId)) }
    else .ok s
  | .numAccountsPending target attempts, .numAccountsError peer rpcId error =>
    if awaits attempts peer rpcId then
      .ok { s with state := .numAccountsPending target (attempts.insert peer (.error rpcId error)) }
    else .ok s
  | .numAccountsPending target attempts, .numAccountsAnswer peer rpcId response =>
    if awaits attempts peer rpcId then
      let attempts := attempts.insert peer (.success rpcId)
      match response with
      | .numAccounts count contentsHash => do
        let state ← numAccountsReceived V target attempts count contentsHash
        return { s with state := state }
      | _ => .ok { s with state := .numAccountsPending target attempts }
    else .ok s
  | .merkleTreeSyncPending target queue pending, .addressInit address peer =>
    match queue.get address with
    | some expectedHash => .ok { s with
        state := .merkleTreeSyncPending target (queue.remove address)
          (pending.insert address ⟨expectedHash, OrdMap.empty.insert peer .init⟩) }
    | none => .ok s
  | .merkleTreeSyncPending target queue pending, .addressRetry address peer =>
    if (syncAddressRetryIter pending).any fun a => decide (a = address) then
      .ok { s with state := .merkleTreeSyncPending target queue (setAttempt pending address peer .init) }
    else .ok s
  | .merkleTreeSyncPending target queue pending, .addressPending address peer rpcId =>
    -- the callback of the request that `addressInit` or `addressRetry` has sent
    if (pending.get address).bind (fun q => q.attempts.get peer) = some .init then
      .ok { s with state := .merkleTreeSyncPending target queue (setAttempt pending address peer (.pending rpcId)) }
    else .ok s
  | .merkleTreeSyncPending target queue pending, .addressError peer rpcId error =>
    match queryOf pending peer rpcId with
    | some (address, _) => .ok { s with
        state := .merkleTreeSyncPending target queue (setAttempt pending address peer (.error rpcId error)) }
    | none => .ok s
  | .merkleTreeSyncPending target queue pending, .addressAnswer peer rpcId response =>
    addressAnswer V s target queue pending peer rpcId response
  | .merkleTreeSyncSuccess target, .success => .ok { s with state := .success target }
  | _, _ => .ok s

def run (events : List (Event P A F)) : Except SyncPanic (Sync P A I F) :=
  events.foldlM (step V) s

def start (ledger : MaskImpl A I F) : Sync P A I F :=
  ⟨.numAccountsPending target .empty, ledger⟩

end

end MinaRust.SnarkedSync
