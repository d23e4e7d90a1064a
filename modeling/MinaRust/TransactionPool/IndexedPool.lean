/-
  The indexed pool of commands (`IndexedPool` of `transaction_pool.rs`): five indexes and a
  counter, kept by hand.

  An operation that returns an error leaves no pool here; where the code goes through the
  elements of a hash map or set in some order, the order is an argument.
-/
import MinaRust.Lib.MultiMap
import MinaRust.TransactionPool.Command

namespace MinaRust.TransactionPool

structure IndexedPool (Cmd A Hash R : Type) where
  applicableByFee : HashMap R (HashSet Cmd)
  allBySender : HashMap A (List Cmd × ℕ)
  allByFee : HashMap R (HashSet Cmd)
  allByHash : HashMap Hash Cmd
  transactionsWithExpiration : HashMap ℕ (HashSet Cmd)
  size : ℕ
  slotTxEnd : Option ℕ

inductive Update (Cmd : Type) where
  | add (command : Cmd) (addToApplicableByFee : Bool)
  | removeAllByFeeAndHashAndExpiration (commands : List Cmd)
  | removeFromApplicableByFee (command : Cmd)
  deriving DecidableEq, Repr

structure SenderState (Cmd A : Type) where
  sender : A
  state : Option (List Cmd × ℕ)
  deriving DecidableEq, Repr

variable {Cmd A Hash R : Type} [PoolCommand Cmd A Hash R]
  [DecidableEq Cmd] [DecidableEq A] [LinearOrder Hash] [LinearOrder R]

namespace IndexedPool

def new : IndexedPool Cmd A Hash R := ⟨∅, ∅, ∅, ∅, ∅, 0, none⟩

variable (requiresRevalidation : A → Bool) (getAccount : A → Option AccountView)
  (s : IndexedPool Cmd A Hash R × List Cmd) (p : IndexedPool Cmd A Hash R)

def minFee : Option R := p.allByFee.keys.min?

variable (globalSlotSinceGenesis currentGlobalSlot : ℕ) (cmd : Cmd) (bySender : SenderState Cmd A)
  (updates : List (Update Cmd)) (c : Cmd)

def member : Prop := hash c ∈ p.allByHash

instance (p : IndexedPool Cmd A Hash R) (c : Cmd) : Decidable (p.member c) :=
  inferInstanceAs (Decidable (hash c ∈ p.allByHash))

/-! ## Single indexes -/

def addToExpiration : IndexedPool Cmd A Hash R :=
  if validUntil c = slotMax then p
  else { p with
    transactionsWithExpiration := mapSetInsert p.transactionsWithExpiration (validUntil c) c }

def removeFromExpirationExn : IndexedPool Cmd A Hash R :=
  if validUntil c = slotMax then p
  else { p with
    transactionsWithExpiration := mapSetRemove p.transactionsWithExpiration (validUntil c) c }

def removeApplicableExn : IndexedPool Cmd A Hash R :=
  { p with applicableByFee := mapSetRemove p.applicableByFee (feePerWu c) c }

def insertApplicable : IndexedPool Cmd A Hash R :=
  { p with applicableByFee := mapSetInsert p.applicableByFee (feePerWu c) c }

/-- The commands' own indexes: by fee, by hash, by expiry, and the counter. -/
def insertCommand : IndexedPool Cmd A Hash R :=
  let p := addToExpiration { p with
    allByFee := mapSetInsert p.allByFee (feePerWu c) c
    allByHash := p.allByHash.insert (hash c) c } c
  { p with size := p.size + 1 }

def updateAdd (addToApplicableByFee : Bool) : IndexedPool Cmd A Hash R :=
  (if addToApplicableByFee then p.insertApplicable c else p).insertCommand c

def removeCommand : Except Stop (IndexedPool Cmd A Hash R) := do
  let p := removeFromExpirationExn { p with
    allByFee := mapSetRemove p.allByFee (feePerWu c) c
    allByHash := p.allByHash.erase (hash c) } c
  let size ← checkedSub (.panic .unwrapNone) p.size 1
  return { p with size := size }

def updateRemoveAllByFeeAndHashAndExpiration (cmds : List Cmd) : Except Stop (IndexedPool Cmd A Hash R) :=
  cmds.foldlM removeCommand p

def applyUpdate : Update Cmd → Except Stop (IndexedPool Cmd A Hash R)
  | .add c b => .ok (p.updateAdd c b)
  | .removeAllByFeeAndHashAndExpiration cs => p.updateRemoveAllByFeeAndHashAndExpiration cs
  | .removeFromApplicableByFee c => .ok (p.removeApplicableExn c)

def applyUpdates : Except Stop (IndexedPool Cmd A Hash R) :=
  updates.foldlM applyUpdate p

def setSender : IndexedPool Cmd A Hash R :=
  match bySender.state with
  | some state => { p with allBySender := p.allBySender.insert bySender.sender state }
  | none => { p with allBySender := p.allBySender.erase bySender.sender }

/-! ## Adding a command of a rolled back block -/

def checkSlotTxEnd (slotTxEnd : Option ℕ) (currentGlobalSlot : ℕ) : Except Stop Unit :=
  ensure (.err .afterSlotTxEnd) (∀ e ∈ slotTxEnd, currentGlobalSlot < e)

def addFromBacktrack : Except Stop (IndexedPool Cmd A Hash R) := do
  checkSlotTxEnd p.slotTxEnd currentGlobalSlot
  checkExpiry globalSlotSinceGenesis cmd
  let consumed ← okOr (.err .invalidCurrencyConsumed) (currencyConsumed cmd)
  match p.allBySender.lookup (feePayer cmd) with
  | none =>
    let p := { p with allBySender := p.allBySender.insert (feePayer cmd) ([cmd], consumed) }
    return (p.insertApplicable cmd).insertCommand cmd
  | some (queue, currencyReserved) => do
    let firstQueued ← okOr (.panic .unwrapNone) queue.head?
    ensure (.err (.backtrackNonceMismatch (expectedTargetNonce cmd) (applicableAtNonce firstQueued)))
      (expectedTargetNonce cmd = applicableAtNonce firstQueued)
    let currencyReserved ← okOr (.panic .unwrapNone) (checkedAdd currencyReserved consumed)
    let p := { p with allBySender := p.allBySender.insert (feePayer cmd) (cmd :: queue, currencyReserved) }
    return ((p.removeApplicableExn firstQueued).insertApplicable cmd).insertCommand cmd

/-! ## Removing a command with the later ones of its sender -/

def currencyToRemove (dropQueue : List Cmd) : Except Stop ℕ :=
  dropQueue.foldlM (fun acc cmd => do
    let consumed ← okOr (.err .invalidCurrencyConsumed) (currencyConsumed cmd)
    okOr (.panic .unwrapNone) (checkedAdd consumed acc)) 0

def removeWithDependentsExnImpl : Except Stop (SenderState Cmd A × List (Update Cmd) × List Cmd) := do
  let (senderQueue, reservedCurrency) ← okOr (.panic .unwrapNone) bySender.state
  myAssert (senderQueue ≠ [])
  let cmdIndex ← okOr (.panic .unwrapNone)
    (senderQueue.findIdx? fun c => applicableAtNonce c = applicableAtNonce cmd)
  let dropQueue := senderQueue.drop cmdIndex
  let keepQueue := senderQueue.take cmdIndex
  myAssert (dropQueue ≠ [])
  let currencyToRemove ← currencyToRemove dropQueue
  let reservedCurrency ← checkedSub (.panic .unwrapNone) reservedCurrency currencyToRemove
  let updates := updates ++ [.removeAllByFeeAndHashAndExpiration dropQueue] ++
    if cmdIndex = 0 then [.removeFromApplicableByFee cmd] else []
  if keepQueue ≠ [] then
    return ({ bySender with state := some (keepQueue, reservedCurrency) }, updates, dropQueue)
  else
    myAssert (reservedCurrency = 0)
    return ({ bySender with state := none }, updates, dropQueue)

def removeWithDependentsExn : Except Stop (IndexedPool Cmd A Hash R × List Cmd) := do
  let sender := feePayer cmd
  let bySender : SenderState Cmd A := ⟨sender, p.allBySender.lookup sender⟩
  let (bySender, updates, dropped) ← removeWithDependentsExnImpl cmd bySender []
  let p ← (p.setSender bySender).applyUpdates updates
  return (p, dropped)

/-! ## Adding a command from the network -/

/-- The fees of the commands from the first that does not fit come out of the fee increment. -/
def chargeDropped : List Cmd → ℕ → Except Stop ℕ
  | [], increment => .ok increment
  | cmd :: rest, increment => do
    let increment ← checkedSub (.err (.insufficientReplaceFee (fee cmd) increment)) increment (fee cmd)
    chargeDropped rest increment

/-- `add` is the recursive call; the last component is what comes behind the first command that
    did not fit. -/
def readdTail
    (add : Cmd → ℕ → SenderState Cmd A → Except Stop (SenderState Cmd A × List (Update Cmd) × Cmd × List Cmd)) :
    List Cmd → ℕ → ℕ → SenderState Cmd A → List (Update Cmd) →
      Except Stop (SenderState Cmd A × List (Update Cmd) × ℕ × Option (List Cmd))
  | [], _, increment, bySender, updates => .ok (bySender, updates, increment, none)
  | cmd :: rest, currentNonce, increment, bySender, updates =>
    let currentNonce := succNonce currentNonce
    match add cmd currentNonce bySender with
    | .ok (bySender, thisUpdates, _, dropped) => do
      myAssert (dropped = [])
      readdTail add rest currentNonce increment bySender (updates ++ thisUpdates)
    | .error (.err _) => do
      let increment ← chargeDropped (cmd :: rest) increment
      return (bySender, updates, increment, some rest)
    | .error (.panic p) => .error (.panic p)

def addFromGossipExnImpl (slotTxEnd : Option ℕ) (globalSlotSinceGenesis currentGlobalSlot balance : ℕ) :
    ℕ → Cmd → ℕ → SenderState Cmd A → List (Update Cmd) →
      Except Stop (SenderState Cmd A × List (Update Cmd) × Cmd × List Cmd)
  | 0, _, _, _, _ => .error (.panic .recursionLimit)
  | depth + 1, cmd, currentNonce, bySender, updates => do
    checkSlotTxEnd slotTxEnd currentGlobalSlot
    checkExpiry globalSlotSinceGenesis cmd
    let consumed ← okOr (.err .overflow) (currencyConsumed cmd)
    match bySender.state with
    | none => do
      ensure (.err (.invalidNonce currentNonce (applicableAtNonce cmd)))
        (currentNonce = applicableAtNonce cmd)
      ensure (.err (.insufficientFunds balance consumed)) (consumed ≤ balance)
      return ({ bySender with state := some ([cmd], consumed) }, updates ++ [.add cmd true], cmd, [])
    | some (queuedCmds, reservedCurrency) => do
      myAssert (queuedCmds ≠ [])
      let first ← okOr (.panic .unwrapNone) queuedCmds.head?
      let last ← okOr (.panic .unwrapNone) queuedCmds.getLast?
      let queueApplicableAtNonce := applicableAtNonce first
      let queueTargetNonce := expectedTargetNonce last
      if queueTargetNonce = applicableAtNonce cmd then do
        let reservedCurrency ← okOr (.err .overflow) (checkedAdd consumed reservedCurrency)
        ensure (.err (.insufficientFunds balance reservedCurrency)) (reservedCurrency ≤ balance)
        return ({ bySender with state := some (queuedCmds ++ [cmd], reservedCurrency) },
          updates ++ [.add cmd false], cmd, [])
      else if queueApplicableAtNonce = currentNonce then do
        ensure (.err (.invalidNonce (applicableAtNonce cmd) queueApplicableAtNonce))
          (queueApplicableAtNonce ≤ applicableAtNonce cmd ∧ applicableAtNonce cmd ≤ queueTargetNonce)
        let replacementIndex ← okOr (.panic .unwrapNone)
          (queuedCmds.findIdx? fun c => applicableAtNonce cmd ≤ applicableAtNonce c)
        let dropQueue := queuedCmds.drop replacementIndex
        let toDrop ← okOr (.panic .unwrapNone) dropQueue.head?
        myAssert (applicableAtNonce cmd ≤ applicableAtNonce toDrop)
        ensure (.err (.insufficientReplaceFee (fee toDrop) (fee cmd))) (fee toDrop ≤ fee cmd)
        let (bySender, updates, dropped) ← removeWithDependentsExnImpl toDrop bySender updates
        myAssert (dropQueue = dropped)
        let (bySender, updates, added, addDropped) ← addFromGossipExnImpl slotTxEnd globalSlotSinceGenesis
          currentGlobalSlot balance depth cmd currentNonce bySender updates
        myAssert (addDropped = [])
        let dropHead ← okOr (.panic .unwrapNone) dropped.head?
        let increment ← checkedSub (.panic .unwrapNone) (fee cmd) (fee toDrop)
        let (bySender, updates, increment, rest) ← readdTail
          (fun cmd currentNonce bySender => addFromGossipExnImpl slotTxEnd globalSlotSinceGenesis
            currentGlobalSlot balance depth cmd currentNonce bySender [])
          dropped.tail currentNonce increment bySender updates
        ensure (.err (.insufficientReplaceFee REPLACE_FEE increment)) (REPLACE_FEE ≤ increment)
        return (bySender, updates, added, dropHead :: rest.getD [])
      else
        .error (.err (.invalidNonce (applicableAtNonce cmd) queueTargetNonce))

/-- `add_from_gossip_exn`.  The recursion goes into ever shorter queues, see
    `addFromGossipExnImpl_ends`. -/
def addFromGossipExn (currentNonce balance : ℕ) :
    Except Stop (IndexedPool Cmd A Hash R × Cmd × List Cmd) := do
  let sender := feePayer cmd
  let bySender : SenderState Cmd A := ⟨sender, p.allBySender.lookup sender⟩
  let depth := (bySender.state.elim 0 fun (queue, _) => queue.length) + 2
  let (bySender, updates, added, dropped) ← addFromGossipExnImpl p.slotTxEnd globalSlotSinceGenesis
    currentGlobalSlot balance depth cmd currentNonce bySender []
  let p ← (p.setSender bySender).applyUpdates updates
  return (p, added, dropped)

/-! ## Expiry and size -/

def expired : List Cmd :=
  (p.transactionsWithExpiration.entries.filter fun e => e.1 < globalSlotSinceGenesis).flatMap
    fun e => e.2.keys

def removeIfMember : Except Stop (IndexedPool Cmd A Hash R × List Cmd) :=
  if s.1.member cmd then do
    let (p, removed) ← s.1.removeWithDependentsExn cmd
    return (p, s.2 ++ removed)
  else return s

def removeExpired (order : List Cmd) : Except Stop (IndexedPool Cmd A Hash R × List Cmd) :=
  order.foldlM removeIfMember (p, [])

def removeLowestFee : Except Stop (IndexedPool Cmd A Hash R × List Cmd) :=
  match p.minFee.bind p.allByFee.lookup with
  | none => .ok (p, [])
  | some set => do
    let min ← okOr (.panic .unwrapNone) (set.keys.argmin (hash : Cmd → Hash))
    p.removeWithDependentsExn min

/-! ## Revalidation -/

/-- What `revalidate` reads of an account: the nonce, the liquid balance at the slot,
    and whether it may send and increment its nonce. -/
structure AccountView where
  nonce : ℕ
  liquidBalance : ℕ
  permitted : Bool
  deriving DecidableEq, Repr

/-- `drop_until_sufficient_balance`; the queue is given from its end. -/
def dropUntilSufficientBalance : List Cmd → ℕ → ℕ → Except Stop (List Cmd × ℕ × List Cmd)
  | queueRev, currencyReserved, currentBalance =>
    if currencyReserved ≤ currentBalance then .ok (queueRev.reverse, currencyReserved, [])
    else match queueRev with
      | [] => .error (.panic .unwrapNone)
      | last :: queueRev => do
        let consumed ← okOr (.err .invalidCurrencyConsumed) (currencyConsumed last)
        let currencyReserved ← checkedSub (.panic .unwrapNone) currencyReserved consumed
        let (queue, currencyReserved, dropped) ←
          dropUntilSufficientBalance queueRev currencyReserved currentBalance
        return (queue, currencyReserved, last :: dropped)

/-- The currency left after the commands dropped for their nonce. -/
def releaseCurrency (currencyReserved : ℕ) (cmds : List Cmd) : Except Stop ℕ :=
  cmds.foldlM (fun currencyReserved cmd => do
    let consumed ← okOr (.err .invalidCurrencyConsumed) (currencyConsumed cmd)
    checkedSub (.panic .unwrapNone) currencyReserved consumed) currencyReserved

/-- The queue of the sender becomes `keepQueue`: the `match` of `revalidate` on the kept
    queue. -/
def retainQueue (sender : A) (firstCmd : Cmd) (droppedForNonce droppedForBalance keepQueue : List Cmd)
    (currencyReserved : ℕ) : IndexedPool Cmd A Hash R :=
  if droppedForNonce = [] ∧ droppedForBalance = [] then p
  else match keepQueue.head? with
    | none => { p.removeApplicableExn firstCmd with allBySender := p.allBySender.erase sender }
    | some firstKept =>
      let p := { p with allBySender := p.allBySender.insert sender (keepQueue, currencyReserved) }
      if droppedForNonce = [] then p
      else (p.removeApplicableExn firstCmd).insertApplicable firstKept

def revalidateSender (account : AccountView) (sender : A) (queue : List Cmd)
    (currencyReserved : ℕ) (p : IndexedPool Cmd A Hash R) :
    Except Stop (IndexedPool Cmd A Hash R × List Cmd) := do
  let firstCmd ← okOr (.panic .unwrapNone) queue.head?
  if account.permitted = false ∨ account.nonce < applicableAtNonce firstCmd then
    p.removeWithDependentsExn firstCmd
  else
    let index := (queue.findIdx? fun c => applicableAtNonce c = account.nonce).getD queue.length
    let retainedForNonce := queue.drop index
    let droppedForNonce := queue.take index
    let currencyReserved ← releaseCurrency currencyReserved droppedForNonce
    let (keepQueue, currencyReserved, droppedForBalance) ←
      dropUntilSufficientBalance retainedForNonce.reverse currencyReserved account.liquidBalance
    let toDrop := droppedForNonce ++ droppedForBalance
    let p := p.retainQueue sender firstCmd droppedForNonce droppedForBalance keepQueue currencyReserved
    let p ← p.updateRemoveAllByFeeAndHashAndExpiration toDrop
    return (p, toDrop)

/-- One round of `revalidate`: the pool and the commands dropped so far. -/
def revalidateStep (e : Sigma fun _ : A => List Cmd × ℕ) : Except Stop (IndexedPool Cmd A Hash R × List Cmd) :=
  if requiresRevalidation e.1 then do
    let account ← okOr (.err .accountNotFound) (getAccount e.1)
    let (p, dropped) ← revalidateSender account e.1 e.2.1 e.2.2 s.1
    return (p, s.2 ++ dropped)
  else return s

def revalidate (order : List (Sigma fun _ : A => List Cmd × ℕ)) (p : IndexedPool Cmd A Hash R) :
    Except Stop (IndexedPool Cmd A Hash R × List Cmd) :=
  order.foldlM (revalidateStep requiresRevalidation getAccount) (p, [])

end IndexedPool
end MinaRust.TransactionPool
