/-
  Blocks that are not regular: the proof and the node come to different roots.

  `Digest` are terms built from numbers, keys and applications of the hash function, so
  different stacks have different hashes and no stack is its own successor.
-/
import MinaRust.PendingCoinbase.Agreement

set_option linter.dupNamespace false

namespace MinaRust.PendingCoinbase

open Ledger List Function Table

variable {Pk F : Type}

/-! ## Hashes as terms -/

inductive Digest (Pk : Type) where
  | num (n : ℕ)
  | key (pk : Pk)
  | hash (param : Param) (inputs : List (Digest Pk))

noncomputable instance : DecidableEq (Digest Pk) := Classical.decEq _

def digest : Hasher Pk (Digest Pk) where
  hash := .hash
  toField := .num
  coinbaseInputs data x := [.key data.receiver, .num data.amount, x]

namespace Digest

theorem rootOf_injective {T T' : ℕ → Stack (Digest Pk)} (eq : rootOf digest T = rootOf digest T') :
    ∀ k < 32, T k = T' k := by
  intro k hk
  have leaf := Merkle.hashAt_injective (fun h a b c d (same : digest.mergeHash h a b = digest.mergeHash h c d) => by
    simpa [Hasher.mergeHash, digest] using same) eq (place k) (by
      have := place_lt k hk
      omega)
  have stack : (T k).hashValue digest = (T' k).hashValue digest := by
    rwa [place_place k hk] at leaf
  generalize T k = s at stack
  generalize T' k = s' at stack
  obtain ⟨data, init, curr⟩ := s
  obtain ⟨data', init', curr'⟩ := s'
  simpa [Stack.hashValue, digest] using stack

theorem push_injective {x y : Digest Pk} {cb cb' : Coinbase Pk}
    (eq : CoinbaseStack.push digest x cb = CoinbaseStack.push digest y cb') : x = y := by
  simp only [CoinbaseStack.push, digest, Digest.hash.injEq, cons.injEq] at eq
  exact eq.2.2.2.1

theorem size_pushAll : ∀ (cs : List (Coinbase Pk)) (s : Stack (Digest Pk)),
    sizeOf s.data + cs.length ≤ sizeOf (s.pushAll digest cs).data
  | [], _ => le_rfl
  | cb :: cs, s => by
    have rest := size_pushAll cs (s.pushCoinbase digest cb)
    have first : sizeOf s.data + 1 ≤ sizeOf (s.pushCoinbase digest cb).data := by
      simp only [Stack.pushCoinbase, CoinbaseStack.push, digest, Digest.hash.sizeOf_spec, cons.sizeOf_spec]
      omega
    rw [Stack.pushAll_cons, length_cons]
    omega

theorem pushAll_ne {cs : List (Coinbase Pk)} (ne : cs ≠ []) (s : Stack (Digest Pk)) :
    (s.pushAll digest cs).data ≠ s.data := by
  intro eq
  have size := size_pushAll cs s
  have pos := length_pos_iff.2 ne
  rw [eq] at size
  omega

theorem push_curr_ne (s : StateStack (Digest Pk)) (body : Digest Pk) (slot n : ℕ) :
    (s.push digest body slot).curr ≠ .num n := by
  intro eq
  cases eq

end Digest

/-! ## A collection for a table -/

def allIndexes : HashMap StackId Address where
  entries := (List.range 32).map fun k => ⟨k, addressOf k⟩
  nodupKeys := by
    show (List.map Sigma.fst _).Nodup
    decide

def Table.collection (t : Table F) : PendingCoinbase F where
  tree := ⟨(List.range 32).map fun j => t.stackAt (place j), allIndexes, .new 5, 5⟩
  posList := t.posList
  newPos := t.newPos

theorem collection_refines (H : Hasher Pk F) (t : Table F) : Refines H t.collection t where
  holds :=
    { sound := ⟨rfl, by simp [collection], HashesMatrix.sound_new⟩
      index := by
        show ∀ k < 32, allIndexes.lookup k = some (addressOf k)
        decide
      stack := fun k hk => by
        show ((List.range 32).map fun j => t.stackAt (place j))[place k]? = _
        rw [getElem?_map, getElem?_range (place_lt k hk), Option.map_some, place_place k hk] }
  posList := rfl
  newPos := rfl

/-! ## Transactions that always apply -/

def anyLedger (Tx : Type) : LedgerLogic Tx Unit Unit Empty where
  applyTransactionFirstPass _ _ := .ok ((), ())
  applyTransactionSecondPass _ _ := .ok ()

/-- Only coinbases. -/
abbrev CoinbaseTx (Pk : Type) : Type := Transaction Empty Empty Pk

theorem coinbasesOf_map (cs : List (Coinbase Pk)) :
    coinbasesOf (cs.map Transaction.coinbase : List (CoinbaseTx Pk)) = cs := by
  induction cs with
  | nil => rfl
  | cons cb cs ih => exact congrArg (cb :: ·) ih

variable {H : Hasher Pk F}

theorem firstPass_total : ∀ (ts : List (CoinbaseTx Pk)) (s : StackStateWithInitStack F),
    ∃ r, applyTransactionsFirstPass H (anyLedger _) ts s () = .ok (r, ())
  | [], _ => ⟨_, rfl⟩
  | txn :: ts, s => by
    obtain ⟨r, eq⟩ := firstPass_total ts ⟨⟨pushCoinbase H s.pc.target txn, pushCoinbase H s.pc.target txn⟩,
      pushCoinbase H s.initStack txn⟩
    refine ⟨(⟨(), s.pc.source, pushCoinbase H s.pc.target txn, s.initStack⟩ :: r.1, r.2), ?_⟩
    show (applyTransactionsFirstPass H (anyLedger _) ts _ () >>= _) = _
    rw [eq]
    rfl

theorem secondPass_total : ∀ preStmts : List (PreStatement Unit F),
    ∃ data, applyTransactionsSecondPass (anyLedger (CoinbaseTx Pk)) preStmts () = .ok data
  | [] => ⟨_, rfl⟩
  | preStmt :: preStmts => by
    obtain ⟨data, eq⟩ := secondPass_total preStmts
    refine ⟨⟨preStmt.pendingCoinbaseStackSource, preStmt.pendingCoinbaseStackTarget, preStmt.initStack⟩ :: data, ?_⟩
    show (applyTransactionsSecondPass (anyLedger (CoinbaseTx Pk)) preStmts () >>= _) = _
    rw [eq]
    rfl

theorem anyLedger_applies (body : F) (slot : ℕ) (working : Stack F) (ts ts₂ : List (CoinbaseTx Pk)) :
    ∃ data stack₁ stack₂, updateLedgerAndGetStatements H (anyLedger _) body slot () working ts (some ts₂) =
      .ok (data, stack₁, stack₂) := by
  obtain ⟨⟨pre₁, stack₁⟩, first⟩ := firstPass_total (H := H) ts
    ⟨⟨working, working.pushState H body slot⟩, working⟩
  obtain ⟨⟨pre₂, stack₂⟩, second⟩ := firstPass_total (H := H) ts₂
    ⟨⟨.createWith H working, (Stack.createWith H working).pushState H body slot⟩, .createWith H working⟩
  obtain ⟨data, done⟩ : ∃ data, applyTransactionsSecondPass (anyLedger (CoinbaseTx Pk)) (pre₁ ++ pre₂) () =
    .ok data := secondPass_total _
  refine ⟨data, stack₁, stack₂, ?_⟩
  simp [updateLedgerAndGetStatements, applyFirstPass, first, applySecondPartition, second, ok_bind, done]

/-! ## States of the new stacks -/

section
variable {body : F} {slot : ℕ} {stack working : Stack F}

theorem pushAll_state : ∀ (cs : List (Coinbase Pk)) (s : Stack F), (s.pushAll H cs).state = s.state
  | [], _ => rfl
  | cb :: cs, s => pushAll_state cs (s.pushCoinbase H cb)

theorem firstStack_state (cs : List (Coinbase Pk)) :
    (firstStack H body slot working cs).state = working.state.push H body slot := pushAll_state cs _

theorem secondStack_state (cs : List (Coinbase Pk)) :
    (secondStack H body slot working cs).state = (StateStack.create working.state.curr).push H body slot :=
  pushAll_state cs _

end

namespace Block

variable [DecidableEq Pk] {b : Block Pk}

def firstCoinbases (b : Block Pk) : List (Coinbase Pk) :=
  if b.action = .twoCoinbaseInSecond then [] else b.coinbases

def secondCoinbases (b : Block Pk) : List (Coinbase Pk) :=
  if b.action = .twoCoinbaseInSecond then b.coinbases else []

theorem placed_map : Placed b.action b.coinbases (b.firstCoinbases.map Transaction.coinbase : List (CoinbaseTx Pk))
    (some (b.secondCoinbases.map Transaction.coinbase)) := by
  have nil : coinbasesOf ([] : List (CoinbaseTx Pk)) = [] := rfl
  unfold Placed
  cases action : b.action <;>
    simp [firstCoinbases, secondCoinbases, action, coinbasesOf_map, nil]

def marked (_ : ℕ) : Stack (Digest Pk) := ⟨.num 1, ⟨.num 1, .num 1⟩⟩

/-- The table over terms, and the tables of the circuit and the node. -/
abbrev dTable (b : Block Pk) : Table (Digest Pk) := b.table digest marked

abbrev dCircuit (b : Block Pk) : Table (Digest Pk) := b.circuitTable digest marked (.num 0) 0

def dWorking (b : Block Pk) : Stack (Digest Pk) := b.dTable.latest b.isNewStack

def dFirst (b : Block Pk) : Stack (Digest Pk) := firstStack digest (.num 0) 0 b.dWorking b.firstCoinbases

def dSecond (b : Block Pk) : Stack (Digest Pk) := secondStack digest (.num 0) 0 b.dWorking b.secondCoinbases

abbrev dNode (b : Block Pk) : Table (Digest Pk) :=
  b.nodeTable digest marked (updateOf b.action b.dFirst b.dSecond)

/-- **Terms.**  A block that agrees pops only what is there, and has equal tables. -/
theorem digest_tables (agree : b.Agree) :
    (b.proofEmitted = true → 0 < b.live) ∧ ∀ k < 32, b.dNode.stackAt k = b.dCircuit.stackAt k := by
  have r : Refines digest b.dTable.collection (b.table digest marked) := collection_refines digest _
  obtain ⟨data, stack₁, stack₂, run⟩ := anyLedger_applies (H := digest) (.num 0) 0 b.dWorking
    (b.firstCoinbases.map Transaction.coinbase) (b.secondCoinbases.map Transaction.coinbase)
  obtain ⟨root, node, circuit⟩ := agree (Digest Pk) digest marked b.dTable.collection r Empty Empty Unit Unit
    Empty (anyLedger _) () (.num 0) 0 b.dWorking stack₁ stack₂ _ _ data placed_map (r.latestStack _) run
  have some : b.proofEmitted = true → 0 < b.live := by
    intro emitted
    by_contra none
    rw [nodeRoot_error r _ emitted (by omega)] at node
    cases node
  obtain ⟨first, second⟩ := updateLedgerAndGetStatements_ok run
  have first : stack₁ = b.dFirst := by rw [first, coinbasesOf_map]; rfl
  have second : stack₂ = b.dSecond := by rw [second _ rfl, coinbasesOf_map]; rfl
  rw [nodeRoot_eq r _ some, first, second] at node
  rw [circuitRoot_eq r] at circuit
  exact ⟨some, Digest.rootOf_injective ((Except.ok.inj node).trans (Except.ok.inj circuit).symm)⟩

/-! ## The conditions, one by one -/

section
variable {body : F} {slot : ℕ} {prev : StateStack F} {stack init : Stack F}

theorem updateStack₁_state (some : b.action ≠ .none) :
    (updateStack₁ H (b.inputs body slot) b.total prev stack).state = prev.push H body slot := by
  cases action : b.action with
  | none => exact absurd action some
  | one => rw [updateStack₁_push (.inl action), firstStack_state]
  | twoCoinbaseInFirst => rw [updateStack₁_push (.inr action), firstStack_state]
  | twoCoinbaseInSecond => rw [updateStack₁_second action, firstStack_state]

theorem updateStack₂_state (two : b.action = .twoCoinbaseInFirst ∨ b.action = .twoCoinbaseInSecond) :
    (updateStack₂ H (b.inputs body slot) init stack).state =
      (StateStack.create init.state.curr).push H body slot := by
  rcases two with two | two <;> simp only [updateStack₂, inputs, two] <;> rfl

end

/-- The stacks that the circuit reads, and the two that it writes. -/
abbrev dPopped (b : Block Pk) : Table (Digest Pk) := popped digest b.proofEmitted b.dTable

def dStack₁ (b : Block Pk) : Stack (Digest Pk) :=
  updateStack₁ digest (b.inputs (.num 0) 0) b.total (previousOf b.dPopped b.isNewStack)
    (b.dPopped.stackAt (b.dTable.latestId b.isNewStack))

def dStack₂ (b : Block Pk) : Stack (Digest Pk) :=
  updateStack₂ digest (b.inputs (.num 0) 0) (b.dPopped.stackAt (b.dTable.latestId b.isNewStack))
    (Function.update b.dPopped.stackAt (b.dTable.latestId b.isNewStack) b.dStack₁ (b.dTable.nextId b.isNewStack))

theorem dCircuit_eq : b.dCircuit.stackAt =
    Function.update (Function.update b.dPopped.stackAt (b.dTable.latestId b.isNewStack) b.dStack₁)
      (b.dTable.nextId b.isNewStack) b.dStack₂ := by
  rw [dCircuit, circuitTable, added, popped_nextId]
  rw [addedFirst, popped_latestId]
  rfl

theorem dStack₁_state (some : b.action ≠ .none) :
    b.dStack₁.state = (previousOf b.dPopped b.isNewStack).push digest (.num 0) 0 := updateStack₁_state some

theorem written_cases (action : Action) (stack₁ stack₂ : Stack F) (isNewStack : Bool) (t : Table F) (k : ℕ) :
    (written (updateOf action stack₁ stack₂) isNewStack t).stackAt k = stack₁ ∨
      (written (updateOf action stack₁ stack₂) isNewStack t).stackAt k = stack₂ ∨
      (written (updateOf action stack₁ stack₂) isNewStack t).stackAt k = t.stackAt k := by
  have one : (t.write stack₁ isNewStack).stackAt k = stack₁ ∨ (t.write stack₁ isNewStack).stackAt k = t.stackAt k := by
    rw [write, advance_stackAt]
    show Function.update t.stackAt _ _ k = _ ∨ Function.update t.stackAt _ _ k = _
    rw [update_apply]
    split <;> simp
  have two : ((t.write stack₁ false).write stack₂ true).stackAt k = stack₁ ∨
      ((t.write stack₁ false).write stack₂ true).stackAt k = stack₂ ∨
      ((t.write stack₁ false).write stack₂ true).stackAt k = t.stackAt k := by
    rw [write_two, update_apply, update_apply]
    split
    · simp
    · split <;> simp
  cases action with
  | none => exact .inr (.inr rfl)
  | one => exact one.imp_right .inr
  | twoCoinbaseInFirst | twoCoinbaseInSecond => exact two

/-- With a single live stack, popped: the circuit starts from an empty state, the node
    from that of the popped stack. -/
theorem more_of_tables (some : b.action ≠ .none) (tables : ∀ k < 32, b.dNode.stackAt k = b.dCircuit.stackAt k)
    (emitted : b.proofEmitted = true) : b.live ≠ 1 := by
  intro one
  have lt := b.start_lt
  have current : b.dTable.currentId = b.start := by
    rw [show b.dTable.currentId = (b.start + (b.live - 1)) % 32 from ring_currentId (by omega), one]
    omega
  have oldest : b.dTable.oldestId = b.start := by
    rw [show b.dTable.oldestId = b.start % 32 from ring_oldestId (by omega)]
    omega
  have live : b.dTable.stackAt b.start = marked b.start :=
    ring_stackAt_of_mem (mem_positions.2 ⟨0, by omega, by omega⟩)
  have free : b.dTable.stackAt b.dTable.newPos = .empty digest :=
    ring_stackAt_of_notMem (newPos_notMem (by omega))
  have gone : b.dPopped.stackAt b.start = .empty digest := by
    rw [dPopped, popped, if_pos emitted, ← oldest]
    exact update_self _ _ _
  have apart : b.dTable.newPos ≠ b.start := by
    show (b.start + b.live) % 32 ≠ b.start
    omega
  -- the two states differ in where they start
  have working : b.dWorking.state = ⟨.num 1, .num 1⟩ := by
    rw [dWorking, latest, current, live]
    cases b.isNewStack <;> rfl
  have circuit : b.dStack₁.state.init = .num 0 := by
    rw [dStack₁_state some, previousOf, popped_currentId, current, gone]
    cases b.isNewStack <;> rfl
  have first : b.dFirst.state.init = .num 1 := by
    rw [dFirst, firstStack_state, working]
    rfl
  have second : b.dSecond.state.init = .num 1 := by
    rw [dSecond, secondStack_state, working]
    rfl
  have old : (removed digest b.proofEmitted b.dTable).stackAt (b.dTable.latestId b.isNewStack) = .empty digest := by
    rw [removed_stackAt, latestId, current]
    cases b.isNewStack with
    | false => exact gone
    | true => exact (popped_stackAt fun _ => by rw [oldest]; exact apart).trans free
  have here : b.dCircuit.stackAt (b.dTable.latestId b.isNewStack) = b.dStack₁ := by
    have ne : b.dTable.latestId b.isNewStack ≠ b.dTable.nextId b.isNewStack := by
      rw [latestId, current]
      cases b.isNewStack with
      | false => exact apart.symm
      | true =>
        show b.dTable.newPos ≠ (b.dTable.newPos + 1) % 32
        omega
    rw [dCircuit_eq, update_of_ne ne, update_self]
  have eq := tables _ (b.dTable.latestId_lt b.isNewStack)
  rw [here] at eq
  rcases written_cases b.action b.dFirst b.dSecond b.isNewStack (removed digest b.proofEmitted b.dTable)
    (b.dTable.latestId b.isNewStack) with h | h | h
  · rw [← eq, show b.dNode.stackAt _ = _ from h, first] at circuit
    cases circuit
  · rw [← eq, show b.dNode.stackAt _ = _ from h, second] at circuit
    cases circuit
  · have curr : b.dStack₁.state.curr = .num 0 := by
      rw [← eq, show b.dNode.stackAt _ = _ from h, old]
      rfl
    rw [dStack₁_state some] at curr
    exact Digest.push_curr_ne _ _ _ _ curr

theorem updateOf_two (two : b.action = .twoCoinbaseInFirst ∨ b.action = .twoCoinbaseInSecond) :
    updateOf b.action b.dFirst b.dSecond = .two b.dFirst b.dSecond := by
  rcases two with two | two <;> rw [two] <;> rfl

omit [DecidableEq Pk] in
theorem split_ne (i : CoinbaseInputs Pk F) (total : ℕ) : split i total ≠ [] := by
  rw [split]
  split <;> exact cons_ne_nil _ _

theorem dStack₁_data_ne (first : b.action = .one ∨ b.action = .twoCoinbaseInFirst) :
    b.dStack₁.data ≠ (b.dPopped.stackAt (b.dTable.latestId b.isNewStack)).data := by
  rw [dStack₁, updateStack₁_push first]
  exact Digest.pushAll_ne (split_ne _ _) _

theorem dStack₂_data_first (first : b.action = .twoCoinbaseInFirst) :
    b.dStack₂.data = (Function.update b.dPopped.stackAt (b.dTable.latestId b.isNewStack) b.dStack₁
      (b.dTable.nextId b.isNewStack)).data := by
  simp only [dStack₂, updateStack₂, inputs, first]
  rfl

theorem dStack₂_data_second (second : b.action = .twoCoinbaseInSecond) :
    b.dStack₂.data ≠ (Function.update b.dPopped.stackAt (b.dTable.latestId b.isNewStack) b.dStack₁
      (b.dTable.nextId b.isNewStack)).data := by
  generalize stack_eq : Function.update b.dPopped.stackAt (b.dTable.latestId b.isNewStack) b.dStack₁
    (b.dTable.nextId b.isNewStack) = stack
  have push : b.dStack₂.data = (stack.pushAll digest [(b.inputs (.num 0 : Digest Pk) 0).coinbase b.amount]).data := by
    simp only [dStack₂, stack_eq, updateStack₂, inputs, second]
    rfl
  rw [push]
  exact Digest.pushAll_ne (cons_ne_nil _ _) _

theorem dNode_two (two : b.action = .twoCoinbaseInFirst ∨ b.action = .twoCoinbaseInSecond)
    (more : b.proofEmitted = true → 1 < b.live) :
    b.dNode.stackAt = Function.update (Function.update (removed digest b.proofEmitted b.dTable).stackAt
      b.dTable.currentId b.dFirst) b.dTable.newPos b.dSecond := by
  rw [dNode, updateOf_two two]
  exact nodeTable_two more _ _

theorem dPopped_empty {k : ℕ} (free : k ∉ positions b.start b.live) : b.dPopped.stackAt k = .empty digest := by
  have before : b.dTable.stackAt k = .empty digest := ring_stackAt_of_notMem free
  rw [dPopped, popped]
  split
  · show Function.update b.dTable.stackAt _ _ k = _
    rw [update_apply, before, ite_self]
  · exact before

/-- Without live stacks, a new first stack and a second one change places. -/
theorem circle_of_tables (two : b.action = .twoCoinbaseInFirst ∨ b.action = .twoCoinbaseInSecond)
    (more : b.proofEmitted = true → 1 < b.live) (none : b.live = 0) (new : b.isNewStack = true)
    (same : Table.next b.dTable.newPos = b.dTable.currentId)
    (tables : ∀ k < 32, b.dNode.stackAt k = b.dCircuit.stackAt k) : False := by
  have newPos_lt := b.dTable.newPos_lt
  have ne : b.dTable.currentId ≠ b.dTable.newPos := by
    rw [← same, Table.next]
    omega
  have free : ∀ k, b.dPopped.stackAt k = .empty digest := fun k => dPopped_empty (by
    rw [none]
    exact not_mem_nil)
  have latest : b.dTable.latestId b.isNewStack = b.dTable.newPos := by rw [new]; rfl
  have next : b.dTable.nextId b.isNewStack = b.dTable.currentId := by rw [new, ← same]; rfl
  have circuit := dCircuit_eq (b := b)
  rw [latest, next] at circuit
  have node := dNode_two two more
  rcases two with first | second
  · -- the coinbases are on the first stack of the circuit, the second one of the node
    have at_new := tables _ newPos_lt
    rw [circuit, node, update_self, update_of_ne ne.symm, update_self] at at_new
    have data := dStack₁_data_ne (.inr first)
    rw [← at_new, free] at data
    refine data ?_
    rw [dSecond, secondCoinbases, first]
    rfl
  · have at_current := tables _ b.dTable.currentId_lt
    rw [circuit, node, update_self, update_of_ne ne, update_self] at at_current
    have data := dStack₂_data_second second
    rw [latest, next, update_of_ne ne, ← at_current, free] at data
    refine data ?_
    rw [dFirst, firstCoinbases, second, dWorking, new]
    show (b.dTable.stackAt b.dTable.newPos).data = _
    rw [show b.dTable.stackAt b.dTable.newPos = .empty digest from
      ring_stackAt_of_notMem (by rw [none]; exact not_mem_nil)]

/-- Two stacks with a new first one: the circuit writes one place too far. -/
theorem old_of_tables (two : b.action = .twoCoinbaseInFirst ∨ b.action = .twoCoinbaseInSecond)
    (more : b.proofEmitted = true → 1 < b.live)
    (tables : ∀ k < 32, b.dNode.stackAt k = b.dCircuit.stackAt k) : b.isNewStack = false := by
  by_contra new
  have new : b.isNewStack = true := by simpa using new
  by_cases same : Table.next b.dTable.newPos = b.dTable.currentId
  · -- the place after the free one is not live, so there is no live stack
    have none : b.live = 0 := by
      by_contra pos
      have mem : b.dTable.currentId ∈ positions b.start b.live := by
        rw [show b.dTable.currentId = _ from ring_currentId (by omega)]
        exact currentId_mem (by omega)
      rw [← same] at mem
      exact next_notMem b.live_lt mem
    exact circle_of_tables two more none new same tables
  · have next_ne : Table.next b.dTable.newPos ≠ b.dTable.newPos := by
      rw [Table.next]
      omega
    have next : b.dTable.nextId b.isNewStack = Table.next b.dTable.newPos := by rw [new]; rfl
    have free : (popped digest b.proofEmitted b.dTable).stackAt (Table.next b.dTable.newPos) = .empty digest :=
      dPopped_empty (next_notMem b.live_lt)
    have far := tables _ (Table.next_lt b.dTable.newPos)
    rw [dCircuit_eq, next, update_self, dNode_two two more, update_of_ne next_ne,
      update_of_ne same, removed_stackAt, free] at far
    have curr : b.dStack₂.state.curr = .num 0 := by rw [← far]; rfl
    rw [dStack₂, updateStack₂_state two] at curr
    exact Digest.push_curr_ne _ _ _ _ curr

theorem apart_of_tables (first : b.action = .twoCoinbaseInFirst) (more : b.proofEmitted = true → 1 < b.live)
    (old : b.isNewStack = false) (tables : ∀ k < 32, b.dNode.stackAt k = b.dCircuit.stackAt k)
    (none : b.live = 0) : b.start ≠ 0 := by
  intro zero
  have current : b.dTable.currentId = 0 := by
    show (positions b.start b.live).getLast?.getD 0 = 0
    rw [none]
    rfl
  have newPos : b.dTable.newPos = 0 := by
    show (b.start + b.live) % 32 = 0
    rw [none, zero]
  have latest : b.dTable.latestId b.isNewStack = 0 := by rw [old]; exact current
  have next : b.dTable.nextId b.isNewStack = 0 := by rw [old]; exact newPos
  have here := tables 0 (by decide)
  rw [dCircuit_eq, next, update_self, dNode_two (.inl first) more, newPos] at here
  have data := dStack₁_data_ne (.inr first)
  have second := dStack₂_data_first first
  rw [latest, next, update_self, ← here] at second
  rw [← second, dPopped_empty (by rw [none]; exact not_mem_nil)] at data
  refine data ?_
  rw [dSecond, secondCoinbases, first]
  rfl

/-! ## The coinbases -/

theorem whole_of_push {x : Stack (Digest Pk)} {body : Digest Pk} {slot : ℕ}
    (eq : (x.pushAll digest b.coinbases).data = (x.pushAll digest (split (b.inputs body slot) b.total)).data) :
    Whole b.coinbases := by
  have lt : b.total < 2 ^ 64 := b.total_lt
  have amount_eq : b.amount = (coinbaseForBlockchainSnark (b.coinbases.map Coinbase.amount)).getD 0 := rfl
  have pays : Pays b.receiver b.total b.coinbases := b.pays
  generalize b.coinbases = cs at eq amount_eq pays
  cases pays with
  | nothing => exact Digest.pushAll_ne (split_ne _ _) x eq.symm
  | whole => trivial
  | @split cb₁ cb₂ _ _ sum =>
    intro zero
    have amount_eq : b.amount = b.total := by
      rw [show b.amount = cb₁.amount from amount_eq]
      omega
    have nothing : (checkedAmountSub b.total b.amount == 0) = true := by
      rw [amount_eq, checkedAmountSub_of_le le_rfl lt, Nat.sub_self]
      rfl
    rw [show Block.split (b.inputs body slot) b.total = [(b.inputs body slot).coinbase b.amount] from
      if_pos nothing] at eq
    have inner : (x.pushAll digest [cb₁]).data = x.data := Digest.push_injective eq
    exact Digest.pushAll_ne (cons_ne_nil _ _) x inner

theorem single_of_push {x : Stack (Digest Pk)} {cb : Coinbase Pk}
    (eq : (x.pushAll digest b.coinbases).data = (x.pushAll digest [cb]).data) : b.coinbases.length = 1 := by
  have pays : Pays b.receiver b.total b.coinbases := b.pays
  generalize b.coinbases = cs at eq pays
  cases pays with
  | nothing => exact absurd eq.symm (Digest.pushAll_ne (cons_ne_nil _ _) x)
  | whole => rfl
  | @split cb₁ cb₂ _ _ _ =>
    have inner : (x.pushAll digest [cb₁]).data = x.data := Digest.push_injective eq
    exact absurd inner (Digest.pushAll_ne (cons_ne_nil _ _) x)

theorem whole_of_one (one : b.action = .one) (more : b.proofEmitted = true → 1 < b.live)
    (tables : ∀ k < 32, b.dNode.stackAt k = b.dCircuit.stackAt k) : Whole b.coinbases := by
  have here := tables _ (b.dTable.latestId_lt b.isNewStack)
  have node : b.dNode.stackAt (b.dTable.latestId b.isNewStack) = b.dFirst := by
    rw [dNode, one]
    show ((Table.put _ _ _).advance _).stackAt _ = _
    rw [advance_stackAt, removed_latestId more]
    exact update_self _ _ _
  have circuit : b.dCircuit.stackAt (b.dTable.latestId b.isNewStack) = b.dStack₁ := by
    rw [circuitTable_same (.inr one), addedFirst, popped_latestId]
    exact update_self _ _ _
  rw [node, circuit, dStack₁, updateStack₁_push (.inl one), seen_latest more, dFirst, firstCoinbases,
    if_neg (by rw [one]; decide)] at here
  exact whole_of_push (congrArg Stack.data here)

theorem whole_of_first (first : b.action = .twoCoinbaseInFirst) (more : b.proofEmitted = true → 1 < b.live)
    (old : b.isNewStack = false) (apart : b.live = 0 → b.start ≠ 0)
    (tables : ∀ k < 32, b.dNode.stackAt k = b.dCircuit.stackAt k) : Whole b.coinbases := by
  have ne : b.dTable.currentId ≠ b.dTable.newPos := (newPos_ne_currentId apart).symm
  have here := tables _ b.dTable.currentId_lt
  obtain ⟨_, -, circuit⟩ := circuitTable_two (H := digest) (.num 0 : Digest Pk) 0 (.inl first) more old
    fun _ => newPos_ne_currentId apart
  rw [dNode_two (.inl first) more, update_of_ne ne, update_self, circuit,
    update_of_ne ne, update_self, updateStack₁_push (.inr first), dFirst, firstCoinbases,
    if_neg (by rw [first]; decide), dWorking, old] at here
  exact whole_of_push (congrArg Stack.data here)

theorem single_of_second (second : b.action = .twoCoinbaseInSecond) (more : b.proofEmitted = true → 1 < b.live)
    (old : b.isNewStack = false) (tables : ∀ k < 32, b.dNode.stackAt k = b.dCircuit.stackAt k) :
    b.coinbases.length = 1 := by
  have here := tables _ b.dTable.newPos_lt
  obtain ⟨_, empty, circuit⟩ := circuitTable_two (H := digest) (.num 0 : Digest Pk) 0 (.inr second) more old
    fun first => by rw [second] at first; cases first
  rw [dNode_two (.inr second) more, update_self, circuit, update_self,
    updateStack₂_push second empty, dSecond, secondCoinbases, if_pos second, dWorking, old] at here
  exact single_of_push (congrArg Stack.data here)

theorem regular_of_agree (agree : b.Agree) : b.Regular := by
  obtain ⟨some, tables⟩ := digest_tables agree
  have more : b.action ≠ .none → b.proofEmitted = true → 1 < b.live := fun update emitted => by
    have := some emitted
    have := more_of_tables update tables emitted
    omega
  unfold Regular
  cases action : b.action with
  | none => exact some
  | one =>
    have more := more (by rw [action]; decide)
    exact ⟨more, whole_of_one action more tables⟩
  | twoCoinbaseInFirst =>
    have more := more (by rw [action]; decide)
    have old := old_of_tables (.inl action) more tables
    have apart := apart_of_tables action more old tables
    exact ⟨more, old, apart, whole_of_first action more old apart tables⟩
  | twoCoinbaseInSecond =>
    have more := more (by rw [action]; decide)
    have old := old_of_tables (.inr action) more tables
    exact ⟨more, old, single_of_second action more old tables⟩

/-- **The pending coinbases in the proof and in the node.**  For every block, the two roots
    are equal, whatever the hash functions, the live stacks and the transactions, exactly
    when the block is regular. -/
theorem agree_iff_regular (b : Block Pk) : b.Agree ↔ b.Regular := ⟨regular_of_agree, agree_of_regular⟩

/-- The fee transfer in the first part takes all but the account creation fee, so nothing is
    left for the second. -/
def zeroPart : Block ℕ where
  cc := .mainnet
  superchargeCoinbase := false
  receiver := 0
  parts := .two (some (⟨1, 719000000000⟩, none))
  total := 720000000000
  coinbases := [⟨0, 720000000000, some ⟨1, 719000000000⟩⟩, ⟨0, 0, none⟩]
  action := .one
  isNewStack := false
  proofEmitted := false
  start := 0
  live := 2
  total_eq := rfl
  created := by decide
  start_lt := by decide
  live_lt := by decide

/-- The node pushes both parts, the circuit leaves the zero one out. -/
theorem zeroPart_roots_differ :
    ∃ (data : List (TransactionWithWitness (Digest ℕ))) (stack₁ stack₂ : Stack (Digest ℕ)) (root root' : Digest ℕ),
      zeroPart.dTable.collection.latestStack false = .ok zeroPart.dWorking ∧
      updateLedgerAndGetStatements digest (anyLedger (CoinbaseTx ℕ)) (.num 0) 0 () zeroPart.dWorking
        (zeroPart.coinbases.map Transaction.coinbase) (some []) = .ok (data, stack₁, stack₂) ∧
      (nodeRoot digest (.one stack₁) false none zeroPart.dTable.collection :
        Except (StagedLedgerError Empty) (Digest ℕ)) = .ok root ∧
      circuitRoot digest (zeroPart.inputs (.num 0) 0) false ⟨zeroPart.dTable.collection, false⟩ = .ok root' ∧
      root ≠ root' := by
  have r : Refines digest zeroPart.dTable.collection (zeroPart.table digest marked) := collection_refines digest _
  obtain ⟨data, stack₁, stack₂, run⟩ := anyLedger_applies (H := digest) (.num 0) 0 zeroPart.dWorking
    (zeroPart.coinbases.map Transaction.coinbase) []
  have first : stack₁ = zeroPart.dFirst := by
    rw [(updateLedgerAndGetStatements_ok run).1]
    rfl
  refine ⟨data, stack₁, stack₂, _, _, r.latestStack _, run, nodeRoot_eq r _ nofun, circuitRoot_eq r, fun same => ?_⟩
  rw [first] at same
  have whole : Whole zeroPart.coinbases := whole_of_one rfl nofun (Digest.rootOf_injective same)
  exact whole rfl

end Block

end MinaRust.PendingCoinbase
