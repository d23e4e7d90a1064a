/-
  The minimum balance of a timed account (`account.rs`), and the same in the circuit
  (`proofs/transaction.rs`), which computes with field elements: a comparison is a range check
  of a difference, and what is below zero is a number near the prime.
-/
import Mathlib

namespace MinaRust.Account

open Option Nat

abbrev Slot := Fin (2 ^ 32)
abbrev Amount := Fin (2 ^ 64)

structure Timed where
  initialMinimumBalance : Amount
  cliffTime : Slot
  cliffAmount : Amount
  vestingPeriod : Slot
  vestingIncrement : Amount

/-! ## On machine integers -/

def checkedSub (x y : ℕ) : Option ℕ := if y ≤ x then some (x - y) else none

def checkedMul (x y : ℕ) : Option ℕ := if x * y < 2 ^ 64 then some (x * y) else none

/-- What has vested since the cliff, at most the greatest amount. -/
def vestingDecrement (numPeriods vestingIncrement : ℕ) : Option ℕ :=
  if numPeriods ≠ 0 ∧ (2 ^ 64 - 1) / numPeriods < vestingIncrement then some (2 ^ 64 - 1)
  else checkedMul numPeriods vestingIncrement

/-- `min_balance_at_slot`; `none` is the failed `unwrap` of the product. -/
def minBalanceAtSlot (t : Timed) (globalSlot : Slot) : Option ℕ :=
  if globalSlot < t.cliffTime then some t.initialMinimumBalance
  else if t.vestingPeriod.val = 0 then some 0
  else
    match checkedSub t.initialMinimumBalance t.cliffAmount with
    | none => some 0
    | some minBalancePastCliff =>
      let numPeriods := (globalSlot.val - t.cliffTime) / t.vestingPeriod
      (vestingDecrement numPeriods t.vestingIncrement).map fun decrement =>
        (checkedSub minBalancePastCliff decrement).getD 0

/-! ## In the circuit -/

/-- The Pallas base prime. -/
def PRIME : ℕ := 0x40000000000000000000000000000000224698fc094cf91b992d30ed00000001

instance : NeZero PRIME := ⟨by decide⟩

abbrev Fp := Fin PRIME

def toField (x : ℕ) : Fp := .ofNat PRIME x

def rangeCheckFlag (nbits : ℕ) (x : Fp) : Bool := toField (x.val % 2 ^ nbits) == x

def gte (x y : Fp) : Bool := rangeCheckFlag 32 (x - y)

def lessThan (x y : Fp) : Bool := gte y x && !(y == x)

def subtractUnpackingOrZero (x y : Fp) : Bool × Fp :=
  let res := x - y
  let underflow := rangeCheckFlag 32 (-res) && !(x == y)
  (underflow, if underflow then 0 else res)

/-- `to_inner`: the low limb, which has to be a `u32`. -/
def toInner (x : Fp) : Option ℕ := if x.val % 2 ^ 64 < 2 ^ 32 then some (x.val % 2 ^ 64) else none

def divMod (x y : Fp) : Option (Fp × Fp) := do
  let x ← toInner x
  let y ← toInner y
  if y = 0 then none else some (toField (x / y), toField (x % y))

/-- `sub_flagged`, with the adjustment of `range_check_flagged`. -/
def subFlagged (x y : Fp) : Fp × Bool :=
  let z := x - y
  let adjustmentFactor : Fp := if z.val < 2 ^ 64 then 0 else 1
  (z + adjustmentFactor * toField (2 ^ 64), adjustmentFactor == 1)

def subOrZero (x y : Fp) : Fp :=
  let (res, underflow) := subFlagged x y
  if underflow then 0 else res

def checkedMinBalanceAtSlot
    (globalSlot cliffTime cliffAmount vestingPeriod vestingIncrement initialMinimumBalance : Fp) : Option Fp := do
  let beforeCliff := lessThan globalSlot cliffTime
  let (_, slotDiff) := subtractUnpackingOrZero globalSlot cliffTime
  let minBalanceLessCliffDecrement := subOrZero initialMinimumBalance cliffAmount
  let (numPeriods, _) ← divMod slotDiff vestingPeriod
  let vestingDecrement := numPeriods * vestingIncrement
  let elseValue := subOrZero minBalanceLessCliffDecrement vestingDecrement
  return if beforeCliff then initialMinimumBalance else elseValue

def Timed.checkedMinBalanceAtSlot (t : Timed) (globalSlot : Slot) : Option Fp :=
  Account.checkedMinBalanceAtSlot (toField globalSlot) (toField t.cliffTime) (toField t.cliffAmount)
    (toField t.vestingPeriod) (toField t.vestingIncrement) (toField t.initialMinimumBalance)

/-! ## The schedule -/

def scheduled (t : Timed) (slot : Slot) : ℕ :=
  if slot < t.cliffTime then t.initialMinimumBalance
  else t.initialMinimumBalance - t.cliffAmount - (slot.val - t.cliffTime) / t.vestingPeriod * t.vestingIncrement

variable {t : Timed} {x y : ℕ}

theorem checkedSub_getD (x y : ℕ) : (checkedSub x y).getD 0 = x - y := by
  rw [checkedSub]
  split
  · rfl
  · exact (Nat.sub_eq_zero_of_le (by omega)).symm

/-- A product that does not fit is cut at the greatest amount, which leaves nothing. -/
theorem vestingDecrement_spec (n increment : ℕ) :
    ∃ d, vestingDecrement n increment = some d ∧ ∀ x < 2 ^ 64, x - d = x - n * increment := by
  have cut : n ≠ 0 ∧ (2 ^ 64 - 1) / n < increment ↔ 2 ^ 64 ≤ n * increment := by
    rcases Nat.eq_zero_or_pos n with rfl | more
    · simp
    · rw [and_iff_right more.ne', Nat.div_lt_iff_lt_mul more, Nat.mul_comm]
      omega
  rw [vestingDecrement]
  split
  · next exceeds =>
    have := cut.1 exceeds
    exact ⟨_, rfl, fun x lt => by omega⟩
  · next fits => exact ⟨_, if_pos (not_le.1 (cut.not.1 fits)), fun _ _ => rfl⟩

theorem minBalanceAtSlot_eq (pos : 0 < t.vestingPeriod.val) (slot : Slot) :
    minBalanceAtSlot t slot = some (scheduled t slot) := by
  rw [minBalanceAtSlot, scheduled]
  split
  · rfl
  rw [if_neg pos.ne', checkedSub]
  obtain ⟨d, eq, cut⟩ := vestingDecrement_spec ((slot.val - t.cliffTime) / t.vestingPeriod) t.vestingIncrement
  by_cases le : t.cliffAmount.val ≤ t.initialMinimumBalance
  · rw [if_pos le]
    simp only [eq, map_some, checkedSub_getD]
    rw [cut _ (by omega)]
  · rw [if_neg le, Nat.sub_eq_zero_of_le (not_le.1 le).le, Nat.zero_sub]

theorem prime_gt : 2 ^ 100 < PRIME := by decide

attribute [irreducible] PRIME

theorem val_toField (lt : x < PRIME) : (toField x).val = x := mod_eq_of_lt lt

theorem val_sub (hx : x < PRIME) (hy : y < PRIME) :
    (toField x - toField y).val = if y ≤ x then x - y else PRIME + x - y := by
  have sub : (toField x - toField y).val = (PRIME - y + x) % PRIME := by
    rw [Fin.sub_def, val_toField hx, val_toField hy]
  rw [sub]
  split
  · rw [show PRIME - y + x = x - y + PRIME by omega, add_mod_right, mod_eq_of_lt (by omega)]
  · rw [show PRIME - y + x = PRIME + x - y by omega, mod_eq_of_lt (by omega)]

theorem rangeCheckFlag_iff {nbits : ℕ} {z : Fp} : rangeCheckFlag nbits z = true ↔ z.val < 2 ^ nbits := by
  rw [rangeCheckFlag, beq_iff_eq, Fin.ext_iff, val_toField ((mod_le ..).trans_lt z.isLt)]
  exact mod_eq_iff_lt (by positivity)

theorem toField_mul (x y : ℕ) : toField x * toField y = toField (x * y) :=
  Fin.ext (mul_mod ..).symm

theorem toField_sub (le : y ≤ x) (lt : x < PRIME) : toField x - toField y = toField (x - y) := by
  rw [Fin.ext_iff, val_sub lt (by omega), if_pos le, val_toField (by omega)]

theorem toField_inj (hx : x < 2 ^ 32) (hy : y < 2 ^ 32) : toField x = toField y ↔ x = y := by
  have := prime_gt
  rw [Fin.ext_iff, val_toField (by omega), val_toField (by omega)]

theorem subOrZero_eq (hx : x < 2 ^ 64) (hy : y < 2 ^ 96) : subOrZero (toField x) (toField y) = toField (x - y) := by
  have := prime_gt
  have eq := val_sub (show x < PRIME by omega) (show y < PRIME by omega)
  by_cases le : y ≤ x
  · have differ : ¬ (0 : Fp) = 1 := (toField_inj (by decide) (by decide)).not.2 zero_ne_one
    rw [if_pos le] at eq
    simp only [subOrZero, subFlagged, if_pos (show (toField x - toField y).val < 2 ^ 64 by omega),
      beq_iff_eq, differ, if_false, Fin.zero_mul, Fin.add_zero]
    exact toField_sub le (by omega)
  · rw [if_neg le] at eq
    simp only [subOrZero, subFlagged, if_neg (show ¬ (toField x - toField y).val < 2 ^ 64 by omega),
      beq_self_eq_true, if_true]
    rw [Nat.sub_eq_zero_of_le (not_le.1 le).le]
    rfl

section
variable (hx : x < 2 ^ 32) (hy : y < 2 ^ 32)
include hx hy

theorem gte_iff : gte (toField x) (toField y) = true ↔ y ≤ x := by
  have := prime_gt
  rw [gte, rangeCheckFlag_iff, val_sub (by omega) (by omega)]
  split <;> omega

theorem lessThan_iff : lessThan (toField x) (toField y) = true ↔ x < y := by
  simp only [lessThan, Bool.and_eq_true, gte_iff hy hx, Bool.not_eq_true', beq_eq_false_iff_ne, ne_eq,
    toField_inj hy hx]
  omega

theorem subtractUnpackingOrZero_eq : (subtractUnpackingOrZero (toField x) (toField y)).2 = toField (x - y) := by
  have := prime_gt
  have underflow : (rangeCheckFlag 32 (-(toField x - toField y)) && !(toField x == toField y)) = true ↔ x < y := by
    rw [neg_sub, Bool.beq_comm]
    exact lessThan_iff hx hy
  by_cases lt : x < y
  · simp only [subtractUnpackingOrZero, underflow.2 lt, if_true]
    rw [Nat.sub_eq_zero_of_le lt.le]
    rfl
  · simp only [subtractUnpackingOrZero, underflow, lt, if_false]
    exact toField_sub (not_lt.1 lt) (by omega)

theorem divMod_eq (pos : 0 < y) :
    divMod (toField x) (toField y) = some (toField (x / y), toField (x % y)) := by
  have := prime_gt
  have inner {z : ℕ} (hz : z < 2 ^ 32) : toInner (toField z) = some z := by
    rw [toInner, val_toField (by omega), mod_eq_of_lt (by omega), if_pos hz]
  simp [divMod, inner hx, inner hy, bind_eq_bind, bind_some, if_neg pos.ne']

end

theorem checkedMinBalanceAtSlot_eq (pos : 0 < t.vestingPeriod.val) (slot : Slot) :
    t.checkedMinBalanceAtSlot slot = some (toField (scheduled t slot)) := by
  have diff := subtractUnpackingOrZero_eq slot.isLt t.cliffTime.isLt
  have periods : (slot.val - t.cliffTime) / t.vestingPeriod < 2 ^ 32 :=
    (div_le_self ..).trans_lt ((Nat.sub_le ..).trans_lt slot.isLt)
  have product : (slot.val - t.cliffTime) / t.vestingPeriod * t.vestingIncrement < 2 ^ 96 :=
    (Nat.mul_lt_mul'' periods t.vestingIncrement.isLt).trans_eq (by decide)
  simp only [Timed.checkedMinBalanceAtSlot, checkedMinBalanceAtSlot, diff,
    divMod_eq ((Nat.sub_le ..).trans_lt slot.isLt) t.vestingPeriod.isLt pos, bind_eq_bind, bind_some,
    toField_mul, subOrZero_eq t.initialMinimumBalance.isLt (t.cliffAmount.isLt.trans (by decide)),
    subOrZero_eq ((Nat.sub_le ..).trans_lt t.initialMinimumBalance.isLt) product,
    lessThan_iff slot.isLt t.cliffTime.isLt, scheduled, Fin.lt_def]
  split <;> rfl

/-- **The vesting schedule**: the native value is the exact integer, it never grows, and the
    circuit computes the same. -/
theorem vesting_schedule (t : Timed) (pos : 0 < t.vestingPeriod.val) : ∃ balance : Slot → ℕ, Antitone balance ∧
    ∀ slot, minBalanceAtSlot t slot = some (balance slot) ∧
      (t.checkedMinBalanceAtSlot slot).map Fin.val = some (balance slot) ∧
      (balance slot : ℤ) = if slot < t.cliffTime then (t.initialMinimumBalance.val : ℤ)
        else max 0 (t.initialMinimumBalance.val - t.cliffAmount.val -
          (slot.val - t.cliffTime.val : ℤ) / t.vestingPeriod.val * t.vestingIncrement.val) := by
  have := prime_gt
  refine ⟨scheduled t, fun slot slot' le => ?_, fun slot => ⟨minBalanceAtSlot_eq pos slot, ?_, ?_⟩⟩
  · have fewer := Nat.mul_le_mul_right t.vestingIncrement.val
      (Nat.div_le_div_right (c := t.vestingPeriod.val) (Nat.sub_le_sub_right le t.cliffTime.val))
    have le : slot.val ≤ slot' := le
    simp only [scheduled, Fin.lt_def]
    split_ifs <;> omega
  · rw [checkedMinBalanceAtSlot_eq pos, map_some, val_toField]
    rw [scheduled]
    split <;> omega
  · rw [scheduled]
    split
    · rfl
    · next past =>
      rw [← cast_sub (not_lt.1 past), ← Int.natCast_ediv, ← cast_mul]
      omega

/-- The product of periods and increment may exceed 64 bits here. -/
def greedy : Timed :=
  ⟨⟨1000, by decide⟩, ⟨10, by decide⟩, ⟨100, by decide⟩, ⟨1, by decide⟩, ⟨2 ^ 33, by decide⟩⟩

theorem vesting_schedule_greedy : ∃ balance : ℕ, minBalanceAtSlot greedy greedy.cliffTime = some balance ∧
    (greedy.checkedMinBalanceAtSlot greedy.cliffTime).map Fin.val = some balance ∧ (balance : ℤ) = 900 := by
  obtain ⟨balance, -, same⟩ := vesting_schedule greedy (by decide)
  exact ⟨balance greedy.cliffTime, same greedy.cliffTime⟩

end MinaRust.Account
