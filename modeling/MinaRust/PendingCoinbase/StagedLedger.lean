/-
  The pending coinbases in the staged ledger (`staged_ledger.rs`).

  The state of the block and each coinbase are pushed on the working stack, which gives one
  or two new stacks.  These go to the collection, after the oldest one was removed when a
  proof was emitted.  What the transactions do to the ledger is a parameter, `LedgerLogic`.
-/
import MinaRust.PendingCoinbase.Circuit

set_option linter.dupNamespace false

namespace MinaRust.PendingCoinbase

open Ledger

inductive Transaction (Cmd FeeTransfer Pk : Type) where
  | command (cmd : Cmd)
  | feeTransfer (ft : FeeTransfer)
  | coinbase (cb : Coinbase Pk)

variable {Cmd FeeTransfer Pk F L P E : Type}

def Transaction.coinbase? : Transaction Cmd FeeTransfer Pk → Option (Coinbase Pk)
  | .coinbase cb => some cb
  | _ => none

def coinbasesOf (ts : List (Transaction Cmd FeeTransfer Pk)) : List (Coinbase Pk) :=
  ts.filterMap Transaction.coinbase?

structure LedgerLogic (Tx L P E : Type) where
  applyTransactionFirstPass : L → Tx → Except E (P × L)
  applyTransactionSecondPass : L → P → Except E L

structure StackState (F : Type) where
  source : Stack F
  target : Stack F

structure StackStateWithInitStack (F : Type) where
  pc : StackState F
  initStack : Stack F

structure PreStatement (P F : Type) where
  partiallyAppliedTransaction : P
  pendingCoinbaseStackSource : Stack F
  pendingCoinbaseStackTarget : Stack F
  initStack : Stack F

structure TransactionWithWitness (F : Type) where
  source : Stack F
  target : Stack F
  initStack : Stack F

inductive StackUpdate (F : Type) where
  | none
  | one (stack : Stack F)
  | two (stack₁ stack₂ : Stack F)

inductive StagedLedgerError (E : Type) where
  | panic (p : Panic)
  | ledger (e : E)
  /-- "No coinbase stack-with-state-hash to pop" -/
  | noCoinbaseStackToPop
  /-- "Pending coinbase stack of the ledger proof did not match the oldest stack in the
      pending coinbase tree." -/
  | stackMismatch

def liftPanic {α : Type} : Except Panic α → Except (StagedLedgerError E) α := Except.mapError .panic

def liftLedger {α : Type} : Except E α → Except (StagedLedgerError E) α := Except.mapError .ledger

section
variable (H : Hasher Pk F)

def pushCoinbase (currentStack : Stack F) : Transaction Cmd FeeTransfer Pk → Stack F
  | .coinbase c => currentStack.pushCoinbase H c
  | _ => currentStack

variable (A : LedgerLogic (Transaction Cmd FeeTransfer Pk) L P E)

def applySingleTransactionFirstPass (s : StackStateWithInitStack F)
    (txn : Transaction Cmd FeeTransfer Pk) (ledger : L) :
    Except E ((PreStatement P F × StackStateWithInitStack F) × L) := do
  let pendingCoinbaseTarget := pushCoinbase H s.pc.target txn
  let newInitStack := pushCoinbase H s.initStack txn
  let (partiallyApplied, ledger) ← A.applyTransactionFirstPass ledger txn
  .ok ((⟨partiallyApplied, s.pc.source, pendingCoinbaseTarget, s.initStack⟩,
    ⟨⟨pendingCoinbaseTarget, pendingCoinbaseTarget⟩, newInitStack⟩), ledger)

def applyTransactionsFirstPass : List (Transaction Cmd FeeTransfer Pk) → StackStateWithInitStack F → L →
    Except E ((List (PreStatement P F) × Stack F) × L)
  | [], s, ledger => .ok (([], s.pc.target), ledger)
  | txn :: ts, s, ledger => do
    let ((preStmt, s), ledger) ← applySingleTransactionFirstPass H A s txn ledger
    let ((preStmts, target), ledger) ← applyTransactionsFirstPass ts s ledger
    .ok ((preStmt :: preStmts, target), ledger)

def applyTransactionsSecondPass : List (PreStatement P F) → L → Except E (List (TransactionWithWitness F))
  | [], _ => .ok []
  | preStmt :: preStmts, ledger => do
    let ledger ← A.applyTransactionSecondPass ledger preStmt.partiallyAppliedTransaction
    let data ← applyTransactionsSecondPass preStmts ledger
    .ok (⟨preStmt.pendingCoinbaseStackSource, preStmt.pendingCoinbaseStackTarget, preStmt.initStack⟩ :: data)

variable (stateBodyHash : F) (globalSlot : ℕ)

def applyFirstPass (workingStack : Stack F) (ts : List (Transaction Cmd FeeTransfer Pk)) (ledger : L) :
    Except E ((List (PreStatement P F) × Stack F) × L) :=
  let workingStackWithState := workingStack.pushState H stateBodyHash globalSlot
  applyTransactionsFirstPass H A ts ⟨⟨workingStack, workingStackWithState⟩, workingStack⟩ ledger

def applySecondPartition (currentStack updatedStack₁ : Stack F)
    (tsOpt : Option (List (Transaction Cmd FeeTransfer Pk))) (ledger : L) :
    Except E ((List (PreStatement P F) × Stack F) × L) :=
  match tsOpt with
  | none => .ok (([], updatedStack₁), ledger)
  | some ts => applyFirstPass H A stateBodyHash globalSlot (.createWith H currentStack) ts ledger

def updateLedgerAndGetStatements (ledger : L) (currentStack : Stack F)
    (ts : List (Transaction Cmd FeeTransfer Pk)) (tsOpt : Option (List (Transaction Cmd FeeTransfer Pk))) :
    Except E (List (TransactionWithWitness F) × Stack F × Stack F) := do
  let ((preStmts₁, updatedStack₁), ledger) ← applyFirstPass H A stateBodyHash globalSlot currentStack ts ledger
  let ((preStmts₂, updatedStack₂), ledger) ←
    applySecondPartition H A stateBodyHash globalSlot currentStack updatedStack₁ tsOpt ledger
  let data ← applyTransactionsSecondPass A (preStmts₁ ++ preStmts₂) ledger
  .ok (data, updatedStack₁, updatedStack₂)

/-- The slots that are left on the current tree, and on the next one when it is needed. -/
structure SpacePartition where
  first : ℕ × ℕ
  second : Option (ℕ × ℕ)

def coinbaseExists (txns : List (Transaction Cmd FeeTransfer Pk)) : Bool :=
  txns.any fun tx => tx.coinbase?.isSome

def actionAndUpdate (coinbaseInFirstPartition secondHasData : Bool) (stack₁ stack₂ : Stack F) :
    Action × StackUpdate F :=
  match coinbaseInFirstPartition, secondHasData with
  | true, true => (.twoCoinbaseInFirst, .two stack₁ stack₂)
  | true, false => (.one, .one stack₁)
  | false, true => (.twoCoinbaseInSecond, .two stack₁ stack₂)
  | false, false => (.none, .none)

/-- `partitions` and `nextOnNewTree` are what the scan state answers. -/
def updateCoinbaseStackAndGetData (partitions : SpacePartition) (nextOnNewTree : Bool)
    (stateBodyHash : F) (globalSlot : ℕ) (ledger : L) (pc : PendingCoinbase F)
    (transactions : List (Transaction Cmd FeeTransfer Pk)) :
    Except (StagedLedgerError E) (Bool × List (TransactionWithWitness F) × Action × StackUpdate F) :=
  if transactions = [] then .ok (false, [], .none, .none)
  else if partitions.second = none then do
    let isNewStack := nextOnNewTree
    let workingStack ← liftPanic (pc.latestStack isNewStack)
    let (data, updatedStack, _) ← liftLedger
      (updateLedgerAndGetStatements H A stateBodyHash globalSlot ledger workingStack transactions none)
    .ok (isNewStack, data, .one, .one updatedStack)
  else do
    let txnsForPartition₁ := transactions.take partitions.first.1
    let txnsForPartition₂ := transactions.drop partitions.first.1
    let workingStack₁ ← liftPanic (pc.latestStack false)
    let (data, updatedStack₁, updatedStack₂) ← liftLedger (updateLedgerAndGetStatements H A stateBodyHash
      globalSlot ledger workingStack₁ txnsForPartition₁ (some txnsForPartition₂))
    let (action, update) := actionAndUpdate (coinbaseExists txnsForPartition₁) (!txnsForPartition₂.isEmpty)
      updatedStack₁ updatedStack₂
    .ok (false, data, action, update)

end

section
variable [DecidableEq F]

/-- "Deleting oldest stack if proof emitted".  A proof is given by the pending coinbase
    stack of its target. -/
def deleteOldestStack (H : Hasher Pk F) (depth : ℕ) (ledgerProof : Option (Stack F))
    (pc : PendingCoinbase F) : Except (StagedLedgerError E) (PendingCoinbase F) :=
  match ledgerProof with
  | none => .ok pc
  | some ledgerProofStack => do
    let removed ← liftPanic (pc.removeCoinbaseStack H depth)
    let (oldestStack, pc) ← okOr .noCoinbaseStackToPop removed
    ensure .stackMismatch (oldestStack = ledgerProofStack)
    .ok pc

def writeStacks (depth : ℕ) (stackUpdate : StackUpdate F) (isNewStack : Bool) (pc : PendingCoinbase F) :
    Except (StagedLedgerError E) (PendingCoinbase F) :=
  match stackUpdate with
  | .none => .ok pc
  | .one stack₁ => liftPanic (pc.updateCoinbaseStack depth stack₁ isNewStack)
  | .two stack₁ stack₂ => do
    let pc ← liftPanic (pc.updateCoinbaseStack depth stack₁ false)
    liftPanic (pc.updateCoinbaseStack depth stack₂ true)

def updatePendingCoinbaseCollection (H : Hasher Pk F) (depth : ℕ) (stackUpdate : StackUpdate F)
    (isNewStack : Bool) (ledgerProof : Option (Stack F)) (pc : PendingCoinbase F) :
    Except (StagedLedgerError E) (PendingCoinbase F) := do
  let pc ← deleteOldestStack H depth ledgerProof pc
  writeStacks depth stackUpdate isNewStack pc

end

/-- `coinbase_for_blockchain_snark`; the error is "More than two coinbase parts". -/
def coinbaseForBlockchainSnark (amounts : List ℕ) : Option ℕ :=
  match amounts with
  | [] => some 0
  | [amount] => some amount
  | [amount₁, _] => some amount₁
  | _ => none

/-! ## The new stacks -/

def firstStack (H : Hasher Pk F) (stateBodyHash : F) (globalSlot : ℕ) (working : Stack F)
    (cs : List (Coinbase Pk)) : Stack F :=
  (working.pushState H stateBodyHash globalSlot).pushAll H cs

/-- The same on a new stack that starts from the state of the working one. -/
def secondStack (H : Hasher Pk F) (stateBodyHash : F) (globalSlot : ℕ) (working : Stack F)
    (cs : List (Coinbase Pk)) : Stack F :=
  firstStack H stateBodyHash globalSlot (.createWith H working) cs

variable {H : Hasher Pk F} {A : LedgerLogic (Transaction Cmd FeeTransfer Pk) L P E}

theorem applyTransactionsFirstPass_target : ∀ {ts : List (Transaction Cmd FeeTransfer Pk)}
    {s : StackStateWithInitStack F} {ledger ledger' : L} {preStmts : List (PreStatement P F)} {target : Stack F},
    applyTransactionsFirstPass H A ts s ledger = .ok ((preStmts, target), ledger') →
      target = s.pc.target.pushAll H (coinbasesOf ts)
  | [], s, _, _, _, _, run => by
    cases run
    rfl
  | txn :: ts, s, _, _, _, _, run => by
    obtain ⟨⟨⟨_, s₁⟩, _⟩, first, then_⟩ := bind_eq_ok.1 run
    obtain ⟨⟨⟨_, target⟩, _⟩, rest, done⟩ := bind_eq_ok.1 then_
    cases done
    obtain ⟨⟨_, _⟩, _, done⟩ := bind_eq_ok.1 first
    cases done
    rw [applyTransactionsFirstPass_target rest]
    cases txn <;> rfl

variable {data : List (TransactionWithWitness F)}

theorem updateLedgerAndGetStatements_ok {body : F} {slot : ℕ} {ledger : L} {working : Stack F}
    {ts : List (Transaction Cmd FeeTransfer Pk)} {tsOpt : Option (List (Transaction Cmd FeeTransfer Pk))}
    {stack₁ stack₂ : Stack F}
    (run : updateLedgerAndGetStatements H A body slot ledger working ts tsOpt = .ok (data, stack₁, stack₂)) :
    stack₁ = firstStack H body slot working (coinbasesOf ts) ∧
      ∀ ts₂, tsOpt = some ts₂ → stack₂ = secondStack H body slot working (coinbasesOf ts₂) := by
  obtain ⟨⟨⟨_, s₁⟩, _⟩, first, run⟩ := bind_eq_ok.1 run
  obtain ⟨⟨⟨_, s₂⟩, _⟩, second, run⟩ := bind_eq_ok.1 run
  obtain ⟨_, _, run⟩ := bind_eq_ok.1 run
  cases run
  refine ⟨applyTransactionsFirstPass_target first, ?_⟩
  rintro ts₂ rfl
  exact applyTransactionsFirstPass_target second

def updateOf (action : Action) (stack₁ stack₂ : Stack F) : StackUpdate F :=
  match action with
  | .none => .none
  | .one => .one stack₁
  | .twoCoinbaseInFirst | .twoCoinbaseInSecond => .two stack₁ stack₂

theorem actionAndUpdate_snd (b₁ b₂ : Bool) (stack₁ stack₂ : Stack F) :
    (actionAndUpdate b₁ b₂ stack₁ stack₂).2 = updateOf (actionAndUpdate b₁ b₂ stack₁ stack₂).1 stack₁ stack₂ := by
  cases b₁ <;> cases b₂ <;> rfl

theorem liftPanic_ok {α : Type} {x : Except Panic α} {a : α} :
    (liftPanic x : Except (StagedLedgerError E) α) = .ok a ↔ x = .ok a := by
  cases x <;> simp [liftPanic, Except.mapError]

theorem liftLedger_ok {α : Type} {x : Except E α} {a : α} : liftLedger x = .ok a ↔ x = .ok a := by
  cases x <;> simp [liftLedger, Except.mapError]

/-- **The actions of the staged ledger.**  What is written are the stacks of the block, as
    the action says, and two stacks go with an old first stack. -/
theorem updateCoinbaseStackAndGetData_ok {partitions : SpacePartition} {nextOnNewTree isNewStack : Bool}
    {body : F} {slot : ℕ} {ledger : L} {pc : PendingCoinbase F} {txns : List (Transaction Cmd FeeTransfer Pk)}
    {action : Action} {update : StackUpdate F}
    (run : updateCoinbaseStackAndGetData H A partitions nextOnNewTree body slot ledger pc txns = .ok (isNewStack, data, action, update)) :
    (action = .twoCoinbaseInFirst ∨ action = .twoCoinbaseInSecond → isNewStack = false) ∧
      (action = .none ∨ ∃ working ts tsOpt stack₁ stack₂, pc.latestStack isNewStack = .ok working ∧
        updateLedgerAndGetStatements H A body slot ledger working ts tsOpt = .ok (data, stack₁, stack₂) ∧
        update = updateOf action stack₁ stack₂) := by
  rw [updateCoinbaseStackAndGetData] at run
  split at run
  · cases run
    simp
  split at run
  · obtain ⟨working, found, run⟩ := bind_eq_ok.1 run
    obtain ⟨⟨_, stack₁, stack₂⟩, applied, run⟩ := bind_eq_ok.1 run
    cases run
    refine ⟨by simp, .inr ⟨working, txns, none, stack₁, stack₂, liftPanic_ok.1 found, ?_, rfl⟩⟩
    exact liftLedger_ok.1 applied
  · obtain ⟨working, found, run⟩ := bind_eq_ok.1 run
    obtain ⟨⟨_, stack₁, stack₂⟩, applied, run⟩ := bind_eq_ok.1 run
    cases run
    refine ⟨fun _ => rfl, .inr ⟨working, _, some _, stack₁, stack₂, liftPanic_ok.1 found,
      liftLedger_ok.1 applied, ?_⟩⟩
    exact actionAndUpdate_snd _ _ stack₁ stack₂

/-! ## What the update does to the table -/

def removed (H : Hasher Pk F) (proofEmitted : Bool) (t : Table F) : Table F :=
  if proofEmitted then t.dropOldest.put t.oldestId (.empty H) else t

def Table.write (t : Table F) (stack : Stack F) (isNewStack : Bool) : Table F :=
  (t.put (t.latestId isNewStack) stack).advance isNewStack

def written (update : StackUpdate F) (isNewStack : Bool) (t : Table F) : Table F :=
  match update with
  | .none => t
  | .one stack₁ => t.write stack₁ isNewStack
  | .two stack₁ stack₂ => (t.write stack₁ false).write stack₂ true

namespace Refines

variable [DecidableEq F] {pc : PendingCoinbase F} {t : Table F} {proofEmitted : Bool} (r : Refines H pc t)

include r

theorem writeStacks (update : StackUpdate F) (isNewStack : Bool) :
    ∃ pc', (PendingCoinbase.writeStacks pendingCoinbaseDepth update isNewStack pc :
        Except (StagedLedgerError E) _) = .ok pc' ∧ Refines H pc' (written update isNewStack t) := by
  cases update with
  | none => exact ⟨pc, rfl, r⟩
  | one stack₁ =>
    obtain ⟨pc', eq, r'⟩ := r.updateCoinbaseStack stack₁ isNewStack
    exact ⟨pc', liftPanic_ok.2 eq, r'⟩
  | two stack₁ stack₂ =>
    obtain ⟨pc₁, eq₁, r₁⟩ := r.updateCoinbaseStack stack₁ false
    obtain ⟨pc₂, eq₂, r₂⟩ := r₁.updateCoinbaseStack stack₂ true
    exact ⟨pc₂, bind_eq_ok.2 ⟨pc₁, liftPanic_ok.2 eq₁, liftPanic_ok.2 eq₂⟩, r₂⟩

theorem deleteOldestStack (some : proofEmitted = true → t.posList ≠ []) :
    ∃ pc', (PendingCoinbase.deleteOldestStack H pendingCoinbaseDepth
        (if proofEmitted then .some (t.stackAt t.oldestId) else none) pc :
        Except (StagedLedgerError E) _) = .ok pc' ∧ Refines H pc' (removed H proofEmitted t) := by
  cases proofEmitted with
  | false => exact ⟨pc, rfl, r⟩
  | true =>
    obtain ⟨pc', eq, r'⟩ := r.removeCoinbaseStack (some rfl)
    refine ⟨pc', ?_, r'⟩
    show (liftPanic (pc.removeCoinbaseStack H pendingCoinbaseDepth) >>= _) = _
    rw [liftPanic_ok.2 eq]
    simp only [ok_bind, okOr, ensure_of]

theorem updatePendingCoinbaseCollection (update : StackUpdate F) (isNewStack : Bool)
    (some : proofEmitted = true → t.posList ≠ []) :
    ∃ pc', (PendingCoinbase.updatePendingCoinbaseCollection H pendingCoinbaseDepth update isNewStack
        (if proofEmitted then .some (t.stackAt t.oldestId) else none) pc :
        Except (StagedLedgerError E) _) = .ok pc' ∧
      Refines H pc' (written update isNewStack (removed H proofEmitted t)) := by
  obtain ⟨pc₁, eq₁, r₁⟩ := r.deleteOldestStack (E := E) some
  obtain ⟨pc₂, eq₂, r₂⟩ := r₁.writeStacks (E := E) update isNewStack
  exact ⟨pc₂, bind_eq_ok.2 ⟨pc₁, eq₁, eq₂⟩, r₂⟩

theorem updatePendingCoinbaseCollection_empty (update : StackUpdate F) (isNewStack : Bool)
    (empty : t.posList = []) (stack : Stack F) :
    (PendingCoinbase.updatePendingCoinbaseCollection H pendingCoinbaseDepth update isNewStack
      (.some stack) pc : Except (StagedLedgerError E) _) = .error .noCoinbaseStackToPop := by
  rw [PendingCoinbase.updatePendingCoinbaseCollection, PendingCoinbase.deleteOldestStack,
    liftPanic_ok.2 (r.removeCoinbaseStack_nil empty)]
  rfl

end Refines

end MinaRust.PendingCoinbase
