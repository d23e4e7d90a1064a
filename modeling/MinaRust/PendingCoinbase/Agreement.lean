/-
  The pending coinbases in the proof and in the node.

  The block proof computes the root of the collection by `popCoinbases` and
  `addCoinbaseChecked`, the node by `updatePendingCoinbaseCollection`.  The two roots are the
  same (`Agree`) if and only if the block is `Regular`.
-/
import MinaRust.PendingCoinbase.StagedLedger

set_option linter.dupNamespace false

namespace MinaRust.PendingCoinbase

open Ledger Function Nat Table

/-! ## Stacks in a row -/

/-- `live` ids in a row from `start` on, in a circle. -/
def positions (start live : ℕ) : List ℕ := (List.range live).map fun i => (start + i) % 32

variable {live start : ℕ}

theorem mem_positions {k : ℕ} : k ∈ positions start live ↔ ∃ i < live, (start + i) % 32 = k := by
  simp [positions]

theorem positions_length (start live : ℕ) : (positions start live).length = live := by
  simp [positions]

theorem positions_getLast (pos : 0 < live) :
    (positions start live).getLast? = some ((start + (live - 1)) % 32) := by
  obtain ⟨n, rfl⟩ : ∃ n, live = n + 1 := ⟨live - 1, by omega⟩
  simp [positions, List.range_succ]

theorem positions_head (pos : 0 < live) : (positions start live).head? = some (start % 32) := by
  obtain ⟨n, rfl⟩ : ∃ n, live = n + 1 := ⟨live - 1, by omega⟩
  simp [positions, List.range_succ_eq_map]

variable {Pk F : Type}

variable (H : Hasher Pk F) (content : ℕ → Stack F)

/-- The live stacks stand in a row, all others are empty. -/
def ring (start live : ℕ) : Table F where
  stackAt k := if k ∈ positions start live then content k else .empty H
  posList := positions start live
  newPos := (start + live) % 32
  posList_lt k hk := by
    obtain ⟨i, -, rfl⟩ := mem_positions.1 hk
    exact mod_lt _ (by decide)
  newPos_lt := mod_lt _ (by decide)

section
variable {H : Hasher Pk F} {content : ℕ → Stack F} {start live : ℕ}

theorem ring_currentId (pos : 0 < live) : (ring H content start live).currentId = (start + (live - 1)) % 32 := by
  rw [currentId, ring, positions_getLast pos]
  rfl

theorem ring_oldestId (pos : 0 < live) : (ring H content start live).oldestId = start % 32 := by
  rw [oldestId, ring, positions_head pos]
  rfl

theorem ring_posList_ne (pos : 0 < live) : (ring H content start live).posList ≠ [] := by
  intro nil
  have head : (positions start live).head? = some (start % 32) := positions_head pos
  rw [show positions start live = [] from nil] at head
  cases head

theorem ring_stackAt_of_notMem {k : ℕ} (h : k ∉ positions start live) :
    (ring H content start live).stackAt k = .empty H := if_neg h

theorem ring_stackAt_of_mem {k : ℕ} (h : k ∈ positions start live) :
    (ring H content start live).stackAt k = content k := if_pos h

theorem newPos_notMem (few : live < 32) : (start + live) % 32 ∉ positions start live := by
  rw [mem_positions]
  omega

theorem next_notMem (few : live < 31) : Table.next ((start + live) % 32) ∉ positions start live := by
  rw [mem_positions, next]
  omega

theorem currentId_mem (pos : 0 < live) : (start + (live - 1)) % 32 ∈ positions start live :=
  mem_positions.2 ⟨live - 1, by omega, rfl⟩

variable {proofEmitted : Bool}

theorem removed_currentId (more : proofEmitted = true → 1 < live) :
    (removed H proofEmitted (ring H content start live)).currentId = (ring H content start live).currentId := by
  cases proofEmitted with
  | false => rfl
  | true =>
    have length : (positions start live).length ≠ 1 := by
      rw [positions_length]
      have := more rfl
      omega
    show (positions start live).tail.getLast?.getD 0 = (positions start live).getLast?.getD 0
    rw [List.getLast?_tail, if_neg length]

theorem removed_stackAt (proofEmitted : Bool) (t : Table F) :
    (removed H proofEmitted t).stackAt = (popped H proofEmitted t).stackAt := by
  cases proofEmitted <;> rfl

theorem removed_newPos (proofEmitted : Bool) (t : Table F) : (removed H proofEmitted t).newPos = t.newPos := by
  cases proofEmitted <;> rfl

theorem popped_currentId (proofEmitted : Bool) (t : Table F) :
    (popped H proofEmitted t).currentId = t.currentId := by
  cases proofEmitted <;> rfl

theorem popped_latestId (proofEmitted isNewStack : Bool) (t : Table F) :
    (popped H proofEmitted t).latestId isNewStack = t.latestId isNewStack := by
  cases proofEmitted <;> rfl

theorem popped_nextId (proofEmitted isNewStack : Bool) (t : Table F) :
    (popped H proofEmitted t).nextId isNewStack = t.nextId isNewStack := by
  cases proofEmitted <;> rfl

theorem popped_stackAt {t : Table F} {k : ℕ} (ne : proofEmitted = true → k ≠ t.oldestId) :
    (popped H proofEmitted t).stackAt k = t.stackAt k := by
  cases proofEmitted with
  | false => rfl
  | true => exact update_of_ne (ne rfl) _ _

theorem popped_ring (more : proofEmitted = true → 1 < live) (few : live < 31) :
    (popped H proofEmitted (ring H content start live)).stackAt (ring H content start live).currentId =
        (ring H content start live).stackAt (ring H content start live).currentId ∧
      (popped H proofEmitted (ring H content start live)).stackAt ((start + live) % 32) = .empty H := by
  constructor
  · refine popped_stackAt fun emitted => ?_
    have := more emitted
    rw [ring_currentId (by omega), ring_oldestId (by omega)]
    omega
  · rw [popped_stackAt fun emitted => ?_, ring_stackAt_of_notMem (newPos_notMem (by omega))]
    have := more emitted
    rw [ring_oldestId (by omega)]
    omega

end

/-! ## Blocks -/

section
variable [DecidableEq Pk]

/-- What decides about the update, apart from hashes: the coinbases of the pre-diff, the action
    and the flag for a new stack, whether a proof was emitted, and where the live stacks are. -/
structure Block (Pk : Type) [DecidableEq Pk] where
  cc : ConstraintConstants
  superchargeCoinbase : Bool
  receiver : Pk
  parts : CoinbaseParts Pk
  total : ℕ
  coinbases : List (Coinbase Pk)
  action : Action
  isNewStack : Bool
  proofEmitted : Bool
  start : ℕ
  live : ℕ
  total_eq : coinbaseAmount superchargeCoinbase cc = some total
  created : createCoinbase cc parts receiver total = .ok coinbases
  start_lt : start < 32
  live_lt : live < 31

variable {Cmd FeeTransfer : Type}

/-- The coinbases are in the partition that the action names, and nowhere else. -/
def Placed (action : Action) (cs : List (Coinbase Pk)) (ts : List (Transaction Cmd FeeTransfer Pk))
    (tsOpt : Option (List (Transaction Cmd FeeTransfer Pk))) : Prop :=
  match action with
  | .none => True
  | .one => coinbasesOf ts = cs
  | .twoCoinbaseInFirst => coinbasesOf ts = cs ∧ ∃ ts₂, tsOpt = some ts₂ ∧ coinbasesOf ts₂ = []
  | .twoCoinbaseInSecond => coinbasesOf ts = [] ∧ ∃ ts₂, tsOpt = some ts₂ ∧ coinbasesOf ts₂ = cs

end

section
variable [DecidableEq F]

def circuitRoot (H : Hasher Pk F) (i : CoinbaseInputs Pk F) (proofEmitted : Bool)
    (w : PendingCoinbaseWitness F) : Except Panic F := do
  let (_, w) ← popCoinbases H proofEmitted w
  let (root, _) ← addCoinbaseChecked H i w
  .ok root

def nodeRoot {E : Type} (H : Hasher Pk F) (update : StackUpdate F) (isNewStack : Bool)
    (ledgerProof : Option (Stack F)) (pc : PendingCoinbase F) : Except (StagedLedgerError E) F := do
  let pc ← updatePendingCoinbaseCollection H pendingCoinbaseDepth update isNewStack ledgerProof pc
  let (root, _) ← liftPanic (pc.merkleRoot H)
  .ok root

end

namespace Block

variable [DecidableEq Pk] (b : Block Pk)

def amount : ℕ := (coinbaseForBlockchainSnark (b.coinbases.map Coinbase.amount)).getD 0

def inputs (stateBodyHash : F) (globalSlot : ℕ) : CoinbaseInputs Pk F :=
  ⟨b.cc, ⟨b.action, b.amount⟩, b.receiver, b.superchargeCoinbase, stateBodyHash, globalSlot⟩

def table (H : Hasher Pk F) (content : ℕ → Stack F) : Table F := ring H content b.start b.live

def ledgerProof (H : Hasher Pk F) (content : ℕ → Stack F) : Option (Stack F) :=
  if b.proofEmitted then some ((b.table H content).stackAt (b.table H content).oldestId) else none

/-- **The proof and the node agree** on the root, for all hash functions, live stacks and
    transactions that apply. -/
def Agree : Prop :=
  ∀ (F : Type) [DecidableEq F] (H : Hasher Pk F) (content : ℕ → Stack F) (pc : PendingCoinbase F),
    Refines H pc (b.table H content) →
    ∀ (Cmd FeeTransfer L P E : Type) (A : LedgerLogic (Transaction Cmd FeeTransfer Pk) L P E) (ledger : L)
      (stateBodyHash : F) (globalSlot : ℕ) (working stack₁ stack₂ : Stack F)
      (ts : List (Transaction Cmd FeeTransfer Pk)) (tsOpt : Option (List (Transaction Cmd FeeTransfer Pk)))
      (data : List (TransactionWithWitness F)),
      Placed b.action b.coinbases ts tsOpt →
      pc.latestStack b.isNewStack = .ok working →
      updateLedgerAndGetStatements H A stateBodyHash globalSlot ledger working ts tsOpt =
        .ok (data, stack₁, stack₂) →
      ∃ root, (nodeRoot H (updateOf b.action stack₁ stack₂) b.isNewStack (b.ledgerProof H content) pc :
          Except (StagedLedgerError E) F) = .ok root ∧
        circuitRoot H (b.inputs stateBodyHash globalSlot) b.proofEmitted ⟨pc, b.isNewStack⟩ = .ok root

/-- There is a coinbase, and when there are two, the second one is not zero. -/
def Whole (cs : List (Coinbase Pk)) : Prop :=
  match cs with
  | [] => False
  | [_] => True
  | [_, cb₂] => cb₂.amount ≠ 0
  | _ => False

/-- **Regular blocks.**  Without an update, a proof pops a stack that is there.  An update leaves
    a stack; coinbases for the first stack have no part that is zero, for the second there is
    one; two stacks are written only when the first is an old one, and a first stack with
    coinbases is not the free one. -/
def Regular : Prop :=
  match b.action with
  | .none => b.proofEmitted = true → 0 < b.live
  | .one => (b.proofEmitted = true → 1 < b.live) ∧ Whole b.coinbases
  | .twoCoinbaseInFirst => (b.proofEmitted = true → 1 < b.live) ∧ b.isNewStack = false ∧
      (b.live = 0 → b.start ≠ 0) ∧ Whole b.coinbases
  | .twoCoinbaseInSecond => (b.proofEmitted = true → 1 < b.live) ∧ b.isNewStack = false ∧
      b.coinbases.length = 1

/-! ## Regular blocks agree -/

variable {b}

theorem total_lt : b.total < 2 ^ 64 := by
  obtain ⟨total, eq, value⟩ := coinbaseAmount_isSome b.superchargeCoinbase b.cc
  have same : b.total = total := by
    have := b.total_eq
    rw [eq] at this
    exact (Option.some.inj this).symm
  rw [same, value]
  split
  · exact b.cc.scale_lt
  · exact b.cc.amount_lt

theorem pays : Pays b.receiver b.total b.coinbases := createCoinbase_cases b.created

variable {H : Hasher Pk F} {body : F} {slot : ℕ} {prev : StateStack F} {stack init : Stack F}

/-- The coinbases that the circuit pushes on the first stack. -/
def split (i : CoinbaseInputs Pk F) (total : ℕ) : List (Coinbase Pk) :=
  if checkedAmountSub total i.update.coinbaseAmount == 0 then [i.coinbase i.update.coinbaseAmount]
  else [i.coinbase i.update.coinbaseAmount, i.coinbase (checkedAmountSub total i.update.coinbaseAmount)]

theorem updateStack₁_push (first : b.action = .one ∨ b.action = .twoCoinbaseInFirst) :
    updateStack₁ H (b.inputs body slot) b.total prev stack =
      firstStack H body slot { stack with state := prev } (split (b.inputs body slot) b.total) := by
  rcases first with first | first <;>
    cases zero : checkedAmountSub b.total b.amount == 0 <;>
    simp only [updateStack₁, updateStateStack, split, inputs, first, zero] <;> rfl

theorem updateStack₁_first (first : b.action = .one ∨ b.action = .twoCoinbaseInFirst)
    (whole : Whole b.coinbases) :
    updateStack₁ H (b.inputs body slot) b.total prev stack =
      firstStack H body slot { stack with state := prev } b.coinbases := by
  rw [updateStack₁_push first, firstStack, firstStack]
  have lt : b.total < 2 ^ 64 := b.total_lt
  have amount_eq : b.amount = (coinbaseForBlockchainSnark (b.coinbases.map Coinbase.amount)).getD 0 := rfl
  have pays : Pays b.receiver b.total b.coinbases := b.pays
  generalize b.coinbases = cs at whole amount_eq pays
  cases pays with
  | nothing => exact whole.elim
  | whole pk value =>
    have amount_eq : b.amount = b.total := amount_eq.trans value
    have zero : (checkedAmountSub b.total b.amount == 0) = true := by
      rw [amount_eq, checkedAmountSub_of_le le_rfl lt, Nat.sub_self]
      rfl
    rw [show Block.split (b.inputs body slot) b.total = [(b.inputs body slot).coinbase b.amount] from if_pos zero]
    exact Stack.pushCoinbase_congr H pk.symm (by
      rw [value, ← amount_eq]
      exact toInner_of_lt (by omega))
  | @split cb₁ cb₂ pk₁ pk₂ sum =>
    have amount_eq : b.amount = cb₁.amount := amount_eq
    have rem : checkedAmountSub b.total b.amount = cb₂.amount := by
      rw [checkedAmountSub_of_le (by omega) lt]
      omega
    have nonzero : ¬(checkedAmountSub b.total b.amount == 0) = true := by
      rw [rem, beq_iff_eq]
      exact whole
    rw [show Block.split (b.inputs body slot) b.total = [(b.inputs body slot).coinbase b.amount,
      (b.inputs body slot).coinbase (checkedAmountSub b.total b.amount)] from if_neg nonzero, rem]
    have push₁ : ∀ s : Stack F, s.pushCoinbase H ((b.inputs body slot).coinbase b.amount) = s.pushCoinbase H cb₁ :=
      fun s => Stack.pushCoinbase_congr H pk₁.symm ((toInner_of_lt (by omega)).trans amount_eq)
    have push₂ : ∀ s : Stack F, s.pushCoinbase H ((b.inputs body slot).coinbase cb₂.amount) = s.pushCoinbase H cb₂ :=
      fun s => Stack.pushCoinbase_congr H pk₂.symm (toInner_of_lt (by omega))
    simp [Stack.pushAll_cons, Stack.pushAll_nil, push₁, push₂]

theorem updateStack₁_second (second : b.action = .twoCoinbaseInSecond) :
    updateStack₁ H (b.inputs body slot) b.total prev stack =
      firstStack H body slot { stack with state := prev } [] := by
  simp only [updateStack₁, updateStateStack, inputs, second]
  rfl

theorem updateStack₁_none (none : b.action = .none) :
    updateStack₁ H (b.inputs body slot) b.total prev stack = stack := by
  simp only [updateStack₁, updateStateStack, inputs, none]
  rfl

theorem updateStack₂_same (h : b.action = .none ∨ b.action = .one) :
    updateStack₂ H (b.inputs body slot) init stack = stack := by
  rcases h with h | h <;> simp only [updateStack₂, inputs, h] <;> rfl

theorem updateStack₂_first (first : b.action = .twoCoinbaseInFirst) (empty : stack.data = CoinbaseStack.empty H) :
    updateStack₂ H (b.inputs body slot) init stack = secondStack H body slot init [] := by
  obtain ⟨data, state⟩ := stack
  cases empty
  simp only [updateStack₂, inputs, first]
  rfl

theorem updateStack₂_push (second : b.action = .twoCoinbaseInSecond)
    (empty : stack.data = CoinbaseStack.empty H) :
    updateStack₂ H (b.inputs body slot) init stack =
      secondStack H body slot init [(b.inputs body slot).coinbase b.amount] := by
  obtain ⟨data, state⟩ := stack
  cases empty
  simp only [updateStack₂, inputs, second]
  rfl

theorem updateStack₂_second (second : b.action = .twoCoinbaseInSecond)
    (empty : stack.data = CoinbaseStack.empty H) (one : b.coinbases.length = 1) :
    updateStack₂ H (b.inputs body slot) init stack = secondStack H body slot init b.coinbases := by
  rw [updateStack₂_push second empty, secondStack, secondStack, firstStack]
  have lt : b.total < 2 ^ 64 := b.total_lt
  have amount_eq : b.amount = (coinbaseForBlockchainSnark (b.coinbases.map Coinbase.amount)).getD 0 := rfl
  have pays : Pays b.receiver b.total b.coinbases := b.pays
  generalize b.coinbases = cs at one amount_eq pays
  cases pays with
  | nothing => cases one
  | whole pk value =>
    have amount_eq : b.amount = b.total := amount_eq.trans value
    exact Stack.pushCoinbase_congr H pk.symm (by
      rw [value, ← amount_eq]
      exact toInner_of_lt (by omega))
  | split => cases one

def circuitTable (b : Block Pk) (H : Hasher Pk F) (content : ℕ → Stack F) (body : F) (slot : ℕ) : Table F :=
  added H (b.inputs body slot) b.total b.isNewStack (popped H b.proofEmitted (b.table H content))

def nodeTable (b : Block Pk) (H : Hasher Pk F) (content : ℕ → Stack F) (update : StackUpdate F) : Table F :=
  written update b.isNewStack (removed H b.proofEmitted (b.table H content))

section
variable [DecidableEq F] {content : ℕ → Stack F} {pc : PendingCoinbase F} {E : Type}

theorem circuitRoot_eq (r : Refines H pc (b.table H content)) :
    circuitRoot H (b.inputs body slot) b.proofEmitted ⟨pc, b.isNewStack⟩ =
      .ok (rootOf H (b.circuitTable H content body slot).stackAt) := by
  obtain ⟨pc', pop, r'⟩ := r.popCoinbases b.proofEmitted b.isNewStack
  obtain ⟨w, add⟩ := r'.addCoinbaseChecked b.isNewStack (i := b.inputs body slot) b.total_eq
  simp only [circuitRoot, pop, ok_bind, add]
  rfl

theorem nodeRoot_eq (r : Refines H pc (b.table H content)) (update : StackUpdate F)
    (some : b.proofEmitted = true → 0 < b.live) :
    (nodeRoot H update b.isNewStack (b.ledgerProof H content) pc : Except (StagedLedgerError E) F) =
      .ok (rootOf H (b.nodeTable H content update).stackAt) := by
  obtain ⟨pc', eq, r'⟩ := r.updatePendingCoinbaseCollection (E := E) update b.isNewStack
    fun emitted => ring_posList_ne (some emitted)
  obtain ⟨pc'', root, -⟩ := r'.merkleRoot
  rw [nodeRoot, ledgerProof, eq, ok_bind, liftPanic_ok.2 root]
  rfl

theorem nodeRoot_error (r : Refines H pc (b.table H content)) (update : StackUpdate F)
    (emitted : b.proofEmitted = true) (none : b.live = 0) :
    (nodeRoot H update b.isNewStack (b.ledgerProof H content) pc : Except (StagedLedgerError E) F) =
      .error .noCoinbaseStackToPop := by
  have nil : (b.table H content).posList = [] := by
    show positions b.start b.live = []
    rw [none]
    rfl
  rw [nodeRoot, ledgerProof, if_pos emitted, r.updatePendingCoinbaseCollection_empty _ _ nil]
  rfl

end

section
variable {content : ℕ → Stack F}

theorem popped_table {c : ℕ → Stack F} (more : b.proofEmitted = true → 1 < b.live) :
    (popped H b.proofEmitted (b.table H c)).stackAt (b.table H c).currentId =
        (b.table H c).stackAt (b.table H c).currentId ∧
      (popped H b.proofEmitted (b.table H c)).stackAt (b.table H c).newPos = .empty H :=
  popped_ring more b.live_lt

/-- The first stack as the circuit sees it, with the state that it starts from, is the
    working stack of the node. -/
theorem seen_latest (more : b.proofEmitted = true → 1 < b.live) :
    { (popped H b.proofEmitted (b.table H content)).stackAt ((b.table H content).latestId b.isNewStack) with
      state := previousOf (popped H b.proofEmitted (b.table H content)) b.isNewStack } =
      (b.table H content).latest b.isNewStack := by
  obtain ⟨current, free⟩ := popped_table (H := H) more
  have empty : (b.table H content).stackAt (b.table H content).newPos = .empty H :=
    ring_stackAt_of_notMem (newPos_notMem (b.live_lt.trans (by decide)))
  rw [previousOf, latest, popped_currentId]
  cases b.isNewStack with
  | false =>
    exact current
  | true =>
    rw [empty]
    exact congrArg₂ (fun (s s' : Stack F) => { s with state := .create s'.state.curr }) free current

theorem removed_latestId (more : b.proofEmitted = true → 1 < b.live) (isNewStack : Bool) :
    (removed H b.proofEmitted (b.table H content)).latestId isNewStack =
      (b.table H content).latestId isNewStack := by
  rw [latestId, latestId, removed_newPos]
  rw [show (removed H b.proofEmitted (b.table H content)).currentId = (b.table H content).currentId from
    removed_currentId more]

theorem circuitTable_same (h : b.action = .none ∨ b.action = .one) :
    (b.circuitTable H content body slot).stackAt = (addedFirst H (b.inputs body slot) b.total b.isNewStack
        (popped H b.proofEmitted (b.table H content))).stackAt := by
  rw [circuitTable, added, updateStack₂_same h, put_same]

theorem table_one (one : b.action = .one) (more : b.proofEmitted = true → 1 < b.live)
    (whole : Whole b.coinbases) :
    (b.nodeTable H content (.one (firstStack H body slot ((b.table H content).latest b.isNewStack)
      b.coinbases))).stackAt = (b.circuitTable H content body slot).stackAt := by
  rw [circuitTable_same (.inr one), addedFirst, updateStack₁_first (.inl one) whole, popped_latestId,
    seen_latest more]
  show (((removed H b.proofEmitted (b.table H content)).put _ _).advance b.isNewStack).stackAt = _
  rw [advance_stackAt, removed_latestId more, put, removed_stackAt]
  rfl

theorem second_empty (body : F) (slot : ℕ) (more : b.proofEmitted = true → 1 < b.live) (old : b.isNewStack = false)
    (apart : b.action = .twoCoinbaseInFirst → (b.table H content).newPos ≠ (b.table H content).currentId)
    (two : b.action = .twoCoinbaseInFirst ∨ b.action = .twoCoinbaseInSecond) :
    ((addedFirst H (b.inputs body slot) b.total b.isNewStack
      (popped H b.proofEmitted (b.table H content))).stackAt (b.table H content).newPos).data =
      CoinbaseStack.empty H := by
  obtain ⟨current, free⟩ := popped_table (H := H) more
  rw [addedFirst, popped_latestId, old]
  show (Function.update (popped H b.proofEmitted (b.table H content)).stackAt (b.table H content).currentId _
    (b.table H content).newPos).data = _
  by_cases same : (b.table H content).newPos = (b.table H content).currentId
  · -- only an empty ring has them at one place
    have second : b.action = .twoCoinbaseInSecond := two.resolve_left fun first => apart first same
    rw [same, update_self, updateStack₁_second second]
    show ((popped H b.proofEmitted (b.table H content)).stackAt (b.table H content).currentId).data = _
    rw [← same, free]
    rfl
  · rw [update_of_ne same, free]
    rfl

theorem write_two (t : Table F) (stack₁ stack₂ : Stack F) :
    ((t.write stack₁ false).write stack₂ true).stackAt =
      Function.update (Function.update t.stackAt t.currentId stack₁) t.newPos stack₂ := rfl

theorem circuitTable_two (body : F) (slot : ℕ) (two : b.action = .twoCoinbaseInFirst ∨ b.action = .twoCoinbaseInSecond)
    (more : b.proofEmitted = true → 1 < b.live) (old : b.isNewStack = false)
    (apart : b.action = .twoCoinbaseInFirst → (b.table H content).newPos ≠ (b.table H content).currentId) :
    ∃ stack : Stack F, stack.data = CoinbaseStack.empty H ∧ (b.circuitTable H content body slot).stackAt =
      Function.update (Function.update (removed H b.proofEmitted (b.table H content)).stackAt
        (b.table H content).currentId
        (updateStack₁ H (b.inputs body slot) b.total ((b.table H content).latest false).state
          ((b.table H content).latest false)))
        (b.table H content).newPos
        (updateStack₂ H (b.inputs body slot) ((b.table H content).latest false) stack) := by
  obtain ⟨current, -⟩ := popped_table (H := H) more
  refine ⟨_, second_empty body slot more old apart two, ?_⟩
  have previous : previousOf (popped H b.proofEmitted (b.table H content)) false =
      ((b.table H content).latest false).state := by
    rw [previousOf, popped_currentId]
    exact congrArg Stack.state current
  rw [circuitTable, added, popped_nextId, popped_latestId, old, removed_stackAt]
  show Function.update (addedFirst _ _ _ _ _).stackAt (b.table H content).newPos
    (updateStack₂ H (b.inputs body slot) ((popped H b.proofEmitted (b.table H content)).stackAt
      (b.table H content).currentId) _) = _
  rw [current]
  congr 1
  rw [addedFirst, popped_latestId, previous]
  show Function.update (popped H b.proofEmitted (b.table H content)).stackAt (b.table H content).currentId
    (updateStack₁ _ _ _ _ ((popped H b.proofEmitted (b.table H content)).stackAt
      (b.table H content).currentId)) = _
  rw [current]
  rfl

theorem nodeTable_two (more : b.proofEmitted = true → 1 < b.live) (stack₁ stack₂ : Stack F) :
    (b.nodeTable H content (.two stack₁ stack₂)).stackAt =
      Function.update (Function.update (removed H b.proofEmitted (b.table H content)).stackAt
        (b.table H content).currentId stack₁) (b.table H content).newPos stack₂ := by
  rw [nodeTable, written, write_two, removed_newPos]
  rw [show (removed H b.proofEmitted (b.table H content)).currentId = (b.table H content).currentId from
    removed_currentId more]

theorem newPos_ne_currentId (apart : b.live = 0 → b.start ≠ 0) :
    (b.table H content).newPos ≠ (b.table H content).currentId := by
  have lt := b.start_lt
  rcases Nat.eq_zero_or_pos b.live with none | pos
  · show (b.start + b.live) % 32 ≠ (positions b.start b.live).getLast?.getD 0
    rw [none]
    show (b.start + 0) % 32 ≠ 0
    omega
  · rw [show (b.table H content).currentId = (b.start + (b.live - 1)) % 32 from ring_currentId pos]
    show (b.start + b.live) % 32 ≠ _
    omega

/-- **Regular blocks**: the circuit and the node come to the same stacks. -/
theorem tables_eq (regular : b.Regular) {Cmd FeeTransfer : Type} {ts : List (Transaction Cmd FeeTransfer Pk)}
    {tsOpt : Option (List (Transaction Cmd FeeTransfer Pk))} (placed : Placed b.action b.coinbases ts tsOpt)
    {stack₁ stack₂ : Stack F}
    (first : stack₁ = firstStack H body slot ((b.table H content).latest b.isNewStack) (coinbasesOf ts))
    (second : ∀ ts₂, tsOpt = some ts₂ → stack₂ = secondStack H body slot ((b.table H content).latest b.isNewStack) (coinbasesOf ts₂)) :
    (b.nodeTable H content (updateOf b.action stack₁ stack₂)).stackAt =
      (b.circuitTable H content body slot).stackAt := by
  unfold Regular at regular
  cases action : b.action with
  | none =>
    rw [circuitTable_same (.inl action), addedFirst, updateStack₁_none action, put_same]
    exact removed_stackAt _ _
  | one =>
    simp only [action] at regular placed
    rw [first, placed]
    exact table_one action regular.1 regular.2
  | twoCoinbaseInFirst =>
    simp only [action] at regular placed
    obtain ⟨more, old, apart, whole⟩ := regular
    obtain ⟨here, ts₂, hts₂, none⟩ := placed
    obtain ⟨stack, empty, circuit⟩ := circuitTable_two (H := H) body slot (.inl action) more old
      fun _ => newPos_ne_currentId apart
    rw [circuit, updateStack₁_first (.inr action) whole, updateStack₂_first action empty, first, here,
      second ts₂ hts₂, none, old]
    exact nodeTable_two more _ _
  | twoCoinbaseInSecond =>
    simp only [action] at regular placed
    obtain ⟨more, old, one⟩ := regular
    obtain ⟨none, ts₂, hts₂, here⟩ := placed
    obtain ⟨stack, empty, circuit⟩ := circuitTable_two (H := H) body slot (.inr action) more old
      fun first => by rw [action] at first; cases first
    rw [circuit, updateStack₁_second action, updateStack₂_second action empty one, first, none,
      second ts₂ hts₂, here, old]
    exact nodeTable_two more _ _

end

theorem agree_of_regular (regular : b.Regular) : b.Agree := by
  intro F _ H content pc r Cmd FeeTransfer L P E A ledger body slot working stack₁ stack₂ ts tsOpt data placed
    latest run
  rw [r.latestStack] at latest
  cases latest
  obtain ⟨first, second⟩ := updateLedgerAndGetStatements_ok run
  have some : b.proofEmitted = true → 0 < b.live := by
    intro emitted
    unfold Regular at regular
    cases action : b.action <;> simp only [action] at regular
    · exact regular emitted
    all_goals exact lt_of_succ_lt (regular.1 emitted)
  refine ⟨_, nodeRoot_eq r _ some, ?_⟩
  rw [circuitRoot_eq r, tables_eq regular placed first second]

end Block

end MinaRust.PendingCoinbase
