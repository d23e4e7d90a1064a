/-
  Coinbase stacks (`pending_coinbase.rs`) and the coinbases of a pre-diff (`create_coinbase`
  of `pre_diff_info.rs`).

  A stack holds two chains of hashes: one of the coinbases pushed on it, one of the protocol
  states of the blocks that used it.  Hashing is a parameter, `Hasher`; the checked hash of
  the circuit is the same function.
-/
import Mathlib
import MinaRust.Lib.Checked

namespace MinaRust.PendingCoinbase

/-! ## Coinbases -/

structure CoinbaseFeeTransfer (Pk : Type) where
  receiverPk : Pk
  fee : ℕ
  deriving DecidableEq, Repr

structure Coinbase (Pk : Type) where
  receiver : Pk
  amount : ℕ
  feeTransfer : Option (CoinbaseFeeTransfer Pk)
  deriving DecidableEq, Repr

inductive CoinbaseError where
  /-- "underflow when splitting coinbase: Minuend: .. Subtrahend: .." -/
  | underflow (minuend subtrahend : ℕ)
  /-- "Coinbase.create: invalid coinbase" -/
  | invalidCoinbase
  /-- "Overflow when trying to add account_creation_fee .. to a fee transfer .." -/
  | overflow (accountCreationFee fee : ℕ)
  deriving DecidableEq, Repr

variable {Pk F : Type}

def Coinbase.isValid (cb : Coinbase Pk) : Bool :=
  match cb.feeTransfer with
  | none => true
  | some ft => ft.fee ≤ cb.amount

def Coinbase.create [DecidableEq Pk] (amount : ℕ) (receiver : Pk)
    (feeTransfer : Option (CoinbaseFeeTransfer Pk)) : Except CoinbaseError (Coinbase Pk) :=
  let this : Coinbase Pk := ⟨receiver, amount, feeTransfer⟩
  if this.isValid then
    .ok { this with feeTransfer := feeTransfer.filter fun ft => receiver ≠ ft.receiverPk }
  else .error .invalidCoinbase

/-- The constants that decide about coinbases.  The supercharged amount is an amount. -/
structure ConstraintConstants where
  coinbaseAmount : ℕ
  superchargedCoinbaseFactor : ℕ
  accountCreationFee : ℕ
  amount_lt : coinbaseAmount < 2 ^ 64
  scale_lt : coinbaseAmount * superchargedCoinbaseFactor < 2 ^ 64

/-- The constants of the networks (`network.rs`). -/
def ConstraintConstants.mainnet : ConstraintConstants where
  coinbaseAmount := 720000000000
  superchargedCoinbaseFactor := 1
  accountCreationFee := 1000000000
  amount_lt := by decide
  scale_lt := by decide

def scale (amount n : ℕ) : Option ℕ := if amount * n < 2 ^ 64 then some (amount * n) else none

def coinbaseAmount (superchargeCoinbase : Bool) (cc : ConstraintConstants) : Option ℕ :=
  if superchargeCoinbase then scale cc.coinbaseAmount cc.superchargedCoinbaseFactor
  else some cc.coinbaseAmount

theorem coinbaseAmount_isSome (supercharge : Bool) (cc : ConstraintConstants) :
    ∃ total, coinbaseAmount supercharge cc = some total ∧
      total = if supercharge then cc.coinbaseAmount * cc.superchargedCoinbaseFactor
        else cc.coinbaseAmount := by
  cases supercharge with
  | false => exact ⟨_, rfl, rfl⟩
  | true => exact ⟨_, if_pos cc.scale_lt, rfl⟩

inductive CoinbaseParts (Pk : Type) where
  | zero
  | one (ft : Option (CoinbaseFeeTransfer Pk))
  | two (fts : Option (CoinbaseFeeTransfer Pk × Option (CoinbaseFeeTransfer Pk)))

section
variable [DecidableEq Pk]

def underflowErr (a₁ a₂ : ℕ) : Except CoinbaseError ℕ := checkedSub (.underflow a₁ a₂) a₁ a₂

def twoParts (receiver : Pk) (coinbaseAmount amt : ℕ) (ft₁ ft₂ : Option (CoinbaseFeeTransfer Pk)) :
    Except CoinbaseError (List (Coinbase Pk)) := do
  let remCoinbase ← underflowErr coinbaseAmount amt
  let ft₂Amount := (ft₂.map CoinbaseFeeTransfer.fee).getD 0
  let _ ← underflowErr remCoinbase ft₂Amount
  let cb₁ ← Coinbase.create amt receiver ft₁
  let cb₂ ← Coinbase.create remCoinbase receiver ft₂
  .ok [cb₁, cb₂]

def createCoinbase (cc : ConstraintConstants) (coinbaseParts : CoinbaseParts Pk) (receiver : Pk)
    (coinbaseAmount : ℕ) : Except CoinbaseError (List (Coinbase Pk)) :=
  match coinbaseParts with
  | .zero => .ok []
  | .one x => do
    let cb ← Coinbase.create coinbaseAmount receiver x
    .ok [cb]
  | .two none => twoParts receiver coinbaseAmount cc.accountCreationFee none none
  | .two (some (ft₁, ft₂)) => do
    ensure (.overflow cc.accountCreationFee ft₁.fee) (cc.accountCreationFee + ft₁.fee < 2 ^ 64)
    twoParts receiver coinbaseAmount (cc.accountCreationFee + ft₁.fee) (some ft₁) ft₂

variable {receiver : Pk}

theorem Coinbase.create_spec {amount : ℕ} {ft : Option (CoinbaseFeeTransfer Pk)} {cb : Coinbase Pk}
    (h : Coinbase.create amount receiver ft = .ok cb) : cb.receiver = receiver ∧ cb.amount = amount := by
  rw [create] at h
  dsimp only at h
  split at h
  · cases h
    exact ⟨rfl, rfl⟩
  · cases h

/-- The coinbases pay to `receiver`, nothing, or `total` at once, or `total` in two parts. -/
inductive Pays (receiver : Pk) (total : ℕ) : List (Coinbase Pk) → Prop
  | nothing : Pays receiver total []
  | whole {cb : Coinbase Pk} (pk : cb.receiver = receiver) (amount : cb.amount = total) :
    Pays receiver total [cb]
  | split {cb₁ cb₂ : Coinbase Pk} (pk₁ : cb₁.receiver = receiver) (pk₂ : cb₂.receiver = receiver)
    (sum : cb₁.amount + cb₂.amount = total) : Pays receiver total [cb₁, cb₂]

variable {cs : List (Coinbase Pk)}

theorem twoParts_pays {total amt : ℕ} {ft₁ ft₂ : Option (CoinbaseFeeTransfer Pk)}
    (h : twoParts receiver total amt ft₁ ft₂ = .ok cs) : Pays receiver total cs := by
  obtain ⟨rem, hrem, h⟩ := bind_eq_ok.1 h
  obtain ⟨_, _, h⟩ := bind_eq_ok.1 h
  obtain ⟨cb₁, h₁, h⟩ := bind_eq_ok.1 h
  obtain ⟨cb₂, h₂, h⟩ := bind_eq_ok.1 h
  cases h
  obtain ⟨le, hrem⟩ := checkedSub_eq_ok.1 hrem
  obtain ⟨pk₁, amount₁⟩ := Coinbase.create_spec h₁
  obtain ⟨pk₂, amount₂⟩ := Coinbase.create_spec h₂
  exact .split pk₁ pk₂ (by omega)

theorem createCoinbase_cases {cc : ConstraintConstants} {parts : CoinbaseParts Pk} {total : ℕ}
    (h : createCoinbase cc parts receiver total = .ok cs) : Pays receiver total cs := by
  match parts with
  | .zero =>
    cases h
    exact .nothing
  | .one x =>
    obtain ⟨cb, hcb, h⟩ := bind_eq_ok.1 h
    cases h
    obtain ⟨pk, amount⟩ := Coinbase.create_spec hcb
    exact .whole pk amount
  | .two none => exact twoParts_pays h
  | .two (some (ft₁, ft₂)) =>
    obtain ⟨_, _, h⟩ := bind_eq_ok.1 h
    exact twoParts_pays h

end

/-! ## Stacks -/

/-- The parameters that the hashes of the pending coinbases are made with. -/
inductive Param where
  | coinbaseStack
  | minaProtoState
  | noInputCoinbaseStack
  /-- `get_coinbase_param_for_height` -/
  | coinbaseMerkleTree (height : ℕ)
  deriving DecidableEq, Repr

structure CoinbaseData (Pk : Type) where
  receiver : Pk
  amount : ℕ

def CoinbaseData.ofCoinbase (cb : Coinbase Pk) : CoinbaseData Pk := ⟨cb.receiver, cb.amount⟩

/-- `hash_with_kimchi`, the field element of a number, and the fields that the data of a
    coinbase and a hash are packed into. -/
structure Hasher (Pk F : Type) where
  hash : Param → List F → F
  toField : ℕ → F
  coinbaseInputs : CoinbaseData Pk → F → List F

structure StateStack (F : Type) where
  init : F
  curr : F
  deriving DecidableEq, Repr

/-- `data` is the hash inside a `CoinbaseStack`. -/
structure Stack (F : Type) where
  data : F
  state : StateStack F
  deriving DecidableEq, Repr

variable (H : Hasher Pk F)

def CoinbaseStack.push (data : F) (cb : Coinbase Pk) : F :=
  H.hash .coinbaseStack (H.coinbaseInputs (.ofCoinbase cb) data)

def CoinbaseStack.empty : F := H.hash .noInputCoinbaseStack []

def StateStack.push (s : StateStack F) (stateBodyHash : F) (globalSlot : ℕ) : StateStack F :=
  { init := s.init, curr := H.hash .minaProtoState [s.curr, stateBodyHash, H.toField globalSlot] }

def StateStack.empty : StateStack F := ⟨H.toField 0, H.toField 0⟩

def StateStack.create (init : F) : StateStack F := ⟨init, init⟩

namespace Stack

def empty : Stack F := ⟨CoinbaseStack.empty H, StateStack.empty H⟩

variable (s : Stack F) (cb : Coinbase Pk)

def pushCoinbase : Stack F :=
  { s with data := CoinbaseStack.push H s.data cb }

def pushState (stateBodyHash : F) (globalSlot : ℕ) : Stack F :=
  { s with state := s.state.push H stateBodyHash globalSlot }

def createWith (other : Stack F) : Stack F := { empty H with state := .create other.state.curr }

/-- `StackHasher::hash_value`, and `Stack::hash_var` of the circuit. -/
def hashValue : F := H.hash .coinbaseStack [s.data, s.state.init, s.state.curr]

variable (cs : List (Coinbase Pk))

def pushAll : Stack F := cs.foldl (pushCoinbase H) s

@[simp] theorem pushAll_nil : s.pushAll H [] = s := rfl

@[simp] theorem pushAll_cons : s.pushAll H (cb :: cs) = (s.pushCoinbase H cb).pushAll H cs := rfl

theorem pushCoinbase_congr {s : Stack F} {cb cb' : Coinbase Pk} (pk : cb.receiver = cb'.receiver)
    (amount : cb.amount = cb'.amount) : s.pushCoinbase H cb = s.pushCoinbase H cb' := by
  rw [pushCoinbase, pushCoinbase, CoinbaseStack.push, CoinbaseStack.push, CoinbaseData.ofCoinbase,
    CoinbaseData.ofCoinbase, pk, amount]

end Stack

def Hasher.mergeHash (height : ℕ) (left right : F) : F := H.hash (.coinbaseMerkleTree height) [left, right]

end MinaRust.PendingCoinbase
