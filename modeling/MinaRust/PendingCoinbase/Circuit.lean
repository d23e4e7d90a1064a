/-
  The pending coinbases inside the block proof (`pop_coinbases` and `add_coinbase_checked` of
  `pending_coinbase.rs`).

  The circuit knows the collection by its root only.  It looks stacks up with their paths,
  selects the new stacks by booleans, and climbs the same paths with them.  The recorder of
  the witness is left out.
-/
import MinaRust.PendingCoinbase.Collection

set_option linter.dupNamespace false

namespace MinaRust.PendingCoinbase

open Ledger

inductive Action where
  | none
  | one
  | twoCoinbaseInFirst
  | twoCoinbaseInSecond
  deriving DecidableEq, Repr

structure Update where
  action : Action
  coinbaseAmount : ℕ

namespace Action

def bits : Action → Bool × Bool
  | none => (false, false)
  | one => (true, false)
  | twoCoinbaseInFirst => (false, true)
  | twoCoinbaseInSecond => (true, true)

end Action

variable (b : Bool × Bool)

def noUpdate : Bool := !b.1 && !b.2

def updateTwoStacksCoinbaseInFirst : Bool := !b.1 && b.2

def updateTwoStacksCoinbaseInSecond : Bool := b.1 && b.2

/-! ## Amounts in the field -/

def fieldOrder : ℕ := 0x40000000000000000000000000000000224698fc094cf91b992d30ed00000001

def checkedAmountSub (x y : ℕ) : ℕ := (x + (fieldOrder - y)) % fieldOrder

def toInner (x : ℕ) : ℕ := x % 2 ^ 64

theorem checkedAmountSub_of_le {x y : ℕ} (le : y ≤ x) (lt : x < 2 ^ 64) : checkedAmountSub x y = x - y := by
  have big : 2 ^ 64 < fieldOrder := by decide
  rw [checkedAmountSub, show x + (fieldOrder - y) = x - y + fieldOrder by omega, Nat.add_mod_right,
    Nat.mod_eq_of_lt (by omega)]

theorem toInner_of_lt {x : ℕ} (lt : x < 2 ^ 64) : toInner x = x := Nat.mod_eq_of_lt lt

/-! ## The witness -/

variable {Pk F : Type}

structure PendingCoinbaseWitness (F : Type) where
  pendingCoinbase : PendingCoinbase F
  isNewStack : Bool

namespace PendingCoinbaseWitness

variable (idx : Address) (stack : Stack F) (w : PendingCoinbaseWitness F)

def findIndexOfOldestStack : Except Panic Address :=
  w.pendingCoinbase.findIndex (w.pendingCoinbase.oldestStackId.getD 0)

def getCoinbaseStack (H : Hasher Pk F) (idx : Address) (w : PendingCoinbaseWitness F) :
    Except Panic ((Stack F × List (MerklePath F)) × PendingCoinbaseWitness F) := do
  let elt ← w.pendingCoinbase.getStack idx
  let (path, pc) ← w.pendingCoinbase.path H idx
  .ok ((elt, path), { w with pendingCoinbase := pc })

def findIndexOfNewestStacks : Except Panic (Address × Address) := do
  let index₁ ← w.pendingCoinbase.findIndex (w.pendingCoinbase.latestStackId w.isNewStack)
  let stackId₂ ← w.pendingCoinbase.nextStackId pendingCoinbaseDepth w.isNewStack
  let index₂ ← w.pendingCoinbase.findIndex stackId₂
  .ok (index₁, index₂)

def getPreviousStack : Except Panic (StateStack F) :=
  if w.isNewStack then do
    let stack ← w.pendingCoinbase.currentStack
    .ok ⟨stack.state.curr, stack.state.curr⟩
  else do
    let stack ← w.pendingCoinbase.latestStack w.isNewStack
    .ok stack.state

variable [DecidableEq F]

def setOldestCoinbaseStack : Except Panic (PendingCoinbaseWitness F) := do
  let pc ← w.pendingCoinbase.setStack pendingCoinbaseDepth idx stack false
  .ok { w with pendingCoinbase := pc }

def setCoinbaseStack : Except Panic (PendingCoinbaseWitness F) := do
  let pc ← w.pendingCoinbase.setStack pendingCoinbaseDepth idx stack w.isNewStack
  .ok { w with pendingCoinbase := pc }

end PendingCoinbaseWitness

/-! ## The operations of the circuit -/

section
variable (H : Hasher Pk F)

def popCoinbases [DecidableEq F] (proofEmitted : Bool) (w : PendingCoinbaseWitness F) :
    Except Panic ((F × Stack F) × PendingCoinbaseWitness F) := do
  let addr ← w.findIndexOfOldestStack
  let ((prev, prevPath), w) ← w.getCoinbaseStack H addr
  let next := if proofEmitted then Stack.empty H else prev
  let w ← w.setOldestCoinbaseStack addr next
  .ok ((checkedVerifyMerklePath H next prevPath, prev), w)

structure CoinbaseInputs (Pk F : Type) where
  cc : ConstraintConstants
  update : Update
  coinbaseReceiver : Pk
  superchargeCoinbase : Bool
  stateBodyHash : F
  globalSlot : ℕ

variable (i : CoinbaseInputs Pk F)

/-- The coinbase of the circuit with an amount of the field. -/
def CoinbaseInputs.coinbase (amount : ℕ) : Coinbase Pk := ⟨i.coinbaseReceiver, toInner amount, none⟩

/-- The closure `update_state_stack`, with the state stack that it reads. -/
def updateStateStack (previousStateStack : StateStack F) (stack : Stack F) : Stack F :=
  let stackInitialized := { stack with state := previousStateStack }
  let stackWithStateHash := stackInitialized.pushState H i.stateBodyHash i.globalSlot
  if noUpdate i.update.action.bits then stack else stackWithStateHash

/-- The total in `update_stack1`; the supercharged amount is computed in either case. -/
def totalCoinbaseAmount : Except Panic ℕ := do
  let supercharged ← okOr .unwrapNone (scale i.cc.coinbaseAmount i.cc.superchargedCoinbaseFactor)
  .ok (if i.superchargeCoinbase then supercharged else i.cc.coinbaseAmount)

/-- The closure `update_stack1`.  The comparison of `no_update` with a zero amount has no
    effect in the source. -/
def updateStack₁ (total : ℕ) (previousStateStack : StateStack F) (stack : Stack F) : Stack F :=
  let stack := updateStateStack H i previousStateStack stack
  let amount := i.update.coinbaseAmount
  let remAmount := checkedAmountSub total amount
  let noCoinbaseInThisStack := updateTwoStacksCoinbaseInSecond i.update.action.bits
  let amount₂EqualToZero := remAmount == 0
  let noCoinbase := noUpdate i.update.action.bits || noCoinbaseInThisStack
  let stackWithAmount₁ := stack.pushCoinbase H (i.coinbase amount)
  let stackWithAmount₂ := stackWithAmount₁.pushCoinbase H (i.coinbase remAmount)
  let onFalse := if amount₂EqualToZero then stackWithAmount₁ else stackWithAmount₂
  if noCoinbase then stack else onFalse

def updateStack₂ (initStack stack₀ : Stack F) : Stack F :=
  let addCoinbase := updateTwoStacksCoinbaseInSecond i.update.action.bits
  let updateState := updateTwoStacksCoinbaseInFirst i.update.action.bits || addCoinbase
  let stackWithState :=
    { stack₀ with state := .create initStack.state.curr }.pushState H i.stateBodyHash i.globalSlot
  let stack := if updateState then stackWithState else stack₀
  let stackWithCoinbase := stack.pushCoinbase H (i.coinbase i.update.coinbaseAmount)
  if addCoinbase then stackWithCoinbase else stack

def addCoinbaseChecked [DecidableEq F] (w : PendingCoinbaseWitness F) :
    Except Panic (F × PendingCoinbaseWitness F) := do
  let (addr₁, addr₂) ← w.findIndexOfNewestStacks
  let ((stack₁, path₁), w) ← w.getCoinbaseStack H addr₁
  let previousStateStack ← w.getPreviousStack
  let total ← totalCoinbaseAmount i
  let next₁ := updateStack₁ H i total previousStateStack stack₁
  let w ← w.setCoinbaseStack addr₁ next₁
  let _newRoot := checkedVerifyMerklePath H next₁ path₁
  let ((stack₂, path₂), w) ← w.getCoinbaseStack H addr₂
  let next₂ := updateStack₂ H i stack₁ stack₂
  let w ← w.setCoinbaseStack addr₂ next₂
  .ok (checkedVerifyMerklePath H next₂ path₂, w)

end

/-! ## What they do to the table -/

/-- The table after `popCoinbases`: the oldest id stays in use. -/
def popped (H : Hasher Pk F) (proofEmitted : Bool) (t : Table F) : Table F :=
  if proofEmitted then t.put t.oldestId (.empty H) else t

def previousOf (t : Table F) (isNewStack : Bool) : StateStack F :=
  if isNewStack then .create (t.stackAt t.currentId).state.curr else (t.stackAt t.currentId).state

/-- The table after the first stack is written, with the ids as they were. -/
def addedFirst (H : Hasher Pk F) (i : CoinbaseInputs Pk F) (total : ℕ) (isNewStack : Bool) (t : Table F) :
    Table F :=
  t.put (t.latestId isNewStack)
    (updateStack₁ H i total (previousOf t isNewStack) (t.stackAt (t.latestId isNewStack)))

def added (H : Hasher Pk F) (i : CoinbaseInputs Pk F) (total : ℕ) (isNewStack : Bool) (t : Table F) : Table F :=
  (addedFirst H i total isNewStack t).put (t.nextId isNewStack)
    (updateStack₂ H i (t.stackAt (t.latestId isNewStack))
      ((addedFirst H i total isNewStack t).stackAt (t.nextId isNewStack)))

variable {H : Hasher Pk F} {pc : PendingCoinbase F} {t : Table F} {isNewStack : Bool}

theorem totalCoinbaseAmount_eq {i : CoinbaseInputs Pk F} {total : ℕ}
    (h : coinbaseAmount i.superchargeCoinbase i.cc = some total) : totalCoinbaseAmount i = .ok total := by
  have scaled : scale i.cc.coinbaseAmount i.cc.superchargedCoinbaseFactor =
      some (i.cc.coinbaseAmount * i.cc.superchargedCoinbaseFactor) := if_pos i.cc.scale_lt
  rw [totalCoinbaseAmount, scaled]
  rw [coinbaseAmount, scaled] at h
  cases hs : i.superchargeCoinbase <;> rw [hs] at h <;> cases h <;> rfl

namespace Refines

theorem getCoinbaseStack (r : Refines H pc t) (isNewStack : Bool) {k : ℕ} (hk : k < 32) :
    ∃ path pc', PendingCoinbaseWitness.getCoinbaseStack H (addressOf k) ⟨pc, isNewStack⟩ =
        .ok ((t.stackAt k, path), ⟨pc', isNewStack⟩) ∧ Refines H pc' t ∧
      ∀ stack, checkedVerifyMerklePath H stack path = rootOf H (t.put k stack).stackAt := by
  obtain ⟨path, pc', eq, r', climbs⟩ := r.path hk
  refine ⟨path, pc', ?_, r', climbs⟩
  simp [PendingCoinbaseWitness.getCoinbaseStack, r.getStack hk, ok_bind, eq]

theorem getPreviousStack (r : Refines H pc t) :
    PendingCoinbaseWitness.getPreviousStack ⟨pc, isNewStack⟩ = .ok (previousOf t isNewStack) := by
  cases isNewStack with
  | false =>
    simp only [PendingCoinbaseWitness.getPreviousStack, r.latestStack, ok_bind]
    rfl
  | true =>
    simp only [PendingCoinbaseWitness.getPreviousStack, r.currentStack, ok_bind]
    rfl

theorem findIndexOfNewestStacks (r : Refines H pc t) :
    PendingCoinbaseWitness.findIndexOfNewestStacks ⟨pc, isNewStack⟩ =
      .ok (addressOf (t.latestId isNewStack), addressOf (t.nextId isNewStack)) := by
  simp [PendingCoinbaseWitness.findIndexOfNewestStacks, r.latestStackId, r.findIndex (t.latestId_lt _), r.nextStackId, r.findIndex (t.nextId_lt _), ok_bind]

variable [DecidableEq F]

theorem setCoinbaseStack (r : Refines H pc t) (isNewStack : Bool) {k : ℕ} (hk : k < 32) (stack : Stack F) :
    ∃ pc', PendingCoinbaseWitness.setCoinbaseStack (addressOf k) stack ⟨pc, isNewStack⟩ =
        .ok ⟨pc', isNewStack⟩ ∧ Refines H pc' ((t.put k stack).advance isNewStack) := by
  obtain ⟨pc', eq, r'⟩ := r.setStack hk stack isNewStack
  exact ⟨pc', by simp only [PendingCoinbaseWitness.setCoinbaseStack, eq, ok_bind], r'⟩

theorem popCoinbases (r : Refines H pc t) (proofEmitted isNewStack : Bool) :
    ∃ pc', PendingCoinbase.popCoinbases H proofEmitted ⟨pc, isNewStack⟩ =
        .ok ((rootOf H (popped H proofEmitted t).stackAt, t.stackAt t.oldestId), ⟨pc', isNewStack⟩) ∧
      Refines H pc' (popped H proofEmitted t) := by
  have hk := t.oldestId_lt
  obtain ⟨path, pc₁, get, r₁, climbs⟩ := r.getCoinbaseStack isNewStack hk
  have next : t.put t.oldestId (if proofEmitted then Stack.empty H else t.stackAt t.oldestId) =
      popped H proofEmitted t := by
    cases proofEmitted with
    | false => exact t.put_same _
    | true => rfl
  obtain ⟨pc₂, set, r₂⟩ := r₁.setStack hk (if proofEmitted then Stack.empty H else t.stackAt t.oldestId) false
  rw [next] at r₂
  refine ⟨pc₂, ?_, r₂⟩
  have find : PendingCoinbaseWitness.findIndexOfOldestStack ⟨pc, isNewStack⟩ = .ok (addressOf t.oldestId) := by
    rw [PendingCoinbaseWitness.findIndexOfOldestStack, r.oldestStackId, r.findIndex hk]
  simp [PendingCoinbase.popCoinbases, find, get, ok_bind, PendingCoinbaseWitness.setOldestCoinbaseStack, set, climbs, next]

theorem addCoinbaseChecked (r : Refines H pc t) (isNewStack : Bool) {i : CoinbaseInputs Pk F} {total : ℕ}
    (amount : coinbaseAmount i.superchargeCoinbase i.cc = some total) :
    ∃ w', PendingCoinbase.addCoinbaseChecked H i ⟨pc, isNewStack⟩ =
      .ok (rootOf H (added H i total isNewStack t).stackAt, w') := by
  have hk₁ := t.latestId_lt isNewStack
  have hk₂ := t.nextId_lt isNewStack
  obtain ⟨path₁, pc₁, get₁, r₁, -⟩ := r.getCoinbaseStack isNewStack hk₁
  obtain ⟨pc₂, set₁, r₂⟩ := r₁.setCoinbaseStack isNewStack hk₁
    (updateStack₁ H i total (previousOf t isNewStack) (t.stackAt (t.latestId isNewStack)))
  have r₂ : Refines H pc₂ ((addedFirst H i total isNewStack t).advance isNewStack) := r₂
  obtain ⟨path₂, pc₃, get₂, r₃, climbs⟩ := r₂.getCoinbaseStack isNewStack hk₂
  obtain ⟨pc₄, set₂, -⟩ := r₃.setCoinbaseStack isNewStack hk₂
    (updateStack₂ H i (t.stackAt (t.latestId isNewStack))
      ((addedFirst H i total isNewStack t).stackAt (t.nextId isNewStack)))
  rw [Table.advance_stackAt] at get₂
  refine ⟨⟨pc₄, isNewStack⟩, ?_⟩
  simp only [PendingCoinbase.addCoinbaseChecked, r.findIndexOfNewestStacks, get₁, r₁.getPreviousStack,
    totalCoinbaseAmount_eq amount, set₁, get₂, ok_bind, set₂, climbs, Table.put_advance_stackAt]
  rfl

end Refines

end MinaRust.PendingCoinbase
