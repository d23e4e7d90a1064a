/-
  The commands of the transaction pool, and the ways in which an operation of the
  pool can stop (`transaction_pool.rs`).

  The pool compares commands by their hashes and reads a few attributes of them;
  `PoolCommand` lists these.  Both kinds of user commands pay their fee in the
  default token, so `UnwantedFeeToken` does not arise.
-/
import Mathlib
import MinaRust.Lib.Checked

namespace MinaRust.TransactionPool

inductive Panic where
  | unwrapNone
  /-- "malformed Vk_refcount_table.t" -/
  | malformedVkRefcountTable
  /-- `assert!` in `handle_transition_frontier_diff`. -/
  | assertion
  /-- `bug_condition!` -/
  | bugCondition
  /-- The recursion of `add_from_gossip_exn_impl` is cut off; see `addFromGossipExnImpl_ends`. -/
  | recursionLimit
  deriving DecidableEq, Repr

inductive CommandError where
  | invalidNonce (accountNonce expected : ℕ)
  | insufficientFunds (balance consumed : ℕ)
  | insufficientReplaceFee (replaceFee fee : ℕ)
  | overflow
  | expired (validUntil globalSlotSinceGenesis : ℕ)
  | afterSlotTxEnd
  | backtrackNonceMismatch (expectedNonce firstNonce : ℕ)
  | invalidCurrencyConsumed
  /-- "Account not find" -/
  | accountNotFound
  /-- "assert failed" of `my_assert` -/
  | assertFailed
  deriving DecidableEq, Repr

/-- How an operation stops: with an error that it returns, or for good. -/
inductive Stop where
  | err (e : CommandError)
  | panic (p : Panic)
  deriving DecidableEq, Repr

/-- What the pool reads of a command.  Commands are equal when their hashes are. -/
class PoolCommand (Cmd : Type) (A Hash R : outParam Type) where
  hash : Cmd → Hash
  hash_injective : Function.Injective hash
  feePayer : Cmd → A
  fee : Cmd → ℕ
  /-- The amount of a payment; zero for every other command. -/
  amount : Cmd → ℕ
  feePerWu : Cmd → R
  applicableAtNonce : Cmd → ℕ
  applicableAtNonce_lt : ∀ c, applicableAtNonce c < 2 ^ 32
  validUntil : Cmd → ℕ
  validUntil_lt : ∀ c, validUntil c < 2 ^ 32

export PoolCommand (hash feePayer fee amount feePerWu applicableAtNonce validUntil)

variable {Cmd A Hash R : Type} [PoolCommand Cmd A Hash R]

def slotMax : ℕ := 2 ^ 32 - 1

def REPLACE_FEE : ℕ := 1

def succNonce (nonce : ℕ) : ℕ := (nonce + 1) % 2 ^ 32

def expectedTargetNonce (c : Cmd) : ℕ := succNonce (applicableAtNonce c)

def checkedAdd (a b : ℕ) : Option ℕ := if a + b < 2 ^ 64 then some (a + b) else none

theorem checkedAdd_eq_some {a b c : ℕ} : checkedAdd a b = some c ↔ a + b < 2 ^ 64 ∧ a + b = c := by
  unfold checkedAdd
  split
  · next room => exact ⟨fun h => ⟨room, Option.some.inj h⟩, fun h => congrArg some h.2⟩
  · next full => exact ⟨fun h => absurd h (by simp), fun h => absurd h.1 full⟩

/-- `currency_consumed`; `none` is `InvalidCurrencyConsumed`. -/
def currencyConsumed (c : Cmd) : Option ℕ := checkedAdd (fee c) (amount c)

def checkExpiry (globalSlotSinceGenesis : ℕ) (c : Cmd) : Except Stop Unit :=
  ensure (.err (.expired (validUntil c) globalSlotSinceGenesis)) (globalSlotSinceGenesis ≤ validUntil c)

def myAssert (p : Prop) [Decidable p] : Except Stop Unit := ensure (.err .assertFailed) p

end MinaRust.TransactionPool
