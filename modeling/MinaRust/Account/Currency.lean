/-
  Signed amounts (`scan_state/currency.rs`), and the same in the circuit
  (`proofs/numbers/currency.rs`), which adds values in the field, takes the sign from the
  native sum, and finds magnitude and overflow by a range check.
-/
import MinaRust.Account.Vesting

namespace MinaRust.Account

open scoped Fin.CommRing

inductive Sgn
  | pos
  | neg
  deriving DecidableEq, Repr

structure Signed where
  magnitude : ℕ
  sgn : Sgn
  deriving DecidableEq, Repr

/-! ## On machine integers -/

namespace Magnitude

def addFlagged (x y : ℕ) : ℕ × Bool :=
  let z := (x + y) % 2 ^ 64
  (z, decide (z < x))

def subFlagged (x y : ℕ) : ℕ × Bool := ((x + 2 ^ 64 - y) % 2 ^ 64, decide (x < y))

def absDiff (x y : ℕ) : ℕ := if x < y then y - x else x - y

def addSignedFlagged (x : ℕ) (rhs : Signed) : ℕ × Bool :=
  if rhs.sgn = .pos then addFlagged x rhs.magnitude else subFlagged x rhs.magnitude

end Magnitude

namespace Signed

open Magnitude

def create (magnitude : ℕ) (sgn : Sgn) : Signed := ⟨magnitude, if magnitude = 0 then .pos else sgn⟩

def add (x y : Signed) : Option Signed :=
  if x.sgn = y.sgn then
    if x.magnitude + y.magnitude < 2 ^ 64 then some (create (x.magnitude + y.magnitude) x.sgn)
    else none
  else if x.magnitude = y.magnitude then some ⟨0, .pos⟩
  else some (create (absDiff x.magnitude y.magnitude) (if x.magnitude < y.magnitude then y.sgn else x.sgn))

def addFlagged (x y : Signed) : Signed × Bool :=
  if x.sgn = y.sgn then
    let (magnitude, overflow) := Magnitude.addFlagged x.magnitude y.magnitude
    (⟨magnitude, y.sgn⟩, overflow)
  else
    let sgn := if x.magnitude < y.magnitude then y.sgn
      else if y.magnitude < x.magnitude then x.sgn else .pos
    (⟨absDiff x.magnitude y.magnitude, sgn⟩, false)

/-! ## The integer that is meant -/

def toInt (x : Signed) : ℤ := if x.sgn = .pos then x.magnitude else -x.magnitude

structure Canonical (x : Signed) : Prop where
  bound : x.magnitude < 2 ^ 64
  zero : x.magnitude = 0 → x.sgn = .pos

/-- The sign of an integer with the low bits of its absolute value. -/
def wrapped (z : ℤ) : Signed := ⟨z.natAbs % 2 ^ 64, if z < 0 then .neg else .pos⟩

variable {x y : Signed}

theorem wrapped_exact {z : ℤ} (small : z.natAbs < 2 ^ 64) : (wrapped z).Canonical ∧ (wrapped z).toInt = z := by
  have low : z.natAbs % 2 ^ 64 = z.natAbs := Nat.mod_eq_of_lt small
  by_cases neg : z < 0
  · refine ⟨⟨Nat.mod_lt _ (by decide), fun zero => ?_⟩, ?_⟩
    · simp only [wrapped] at zero
      omega
    · simp only [wrapped, toInt, if_pos neg, low, reduceCtorEq, if_false]
      omega
  · simp only [wrapped, toInt, if_neg neg, low, if_true]
    exact ⟨⟨small, fun _ => rfl⟩, by omega⟩

theorem add_eq (hx : x.Canonical) (hy : y.Canonical) :
    x.add y = if (x.toInt + y.toInt).natAbs < 2 ^ 64 then some (wrapped (x.toInt + y.toInt)) else none := by
  obtain ⟨a, _ | _⟩ := x <;> obtain ⟨b, _ | _⟩ := y <;> obtain ⟨ha, ha'⟩ := hx <;> obtain ⟨hb, hb'⟩ := hy <;>
    simp only [add, create, absDiff, toInt, wrapped, reduceCtorEq, if_true, if_false, imp_false] at *
  all_goals split_ifs <;> first | omega | simp <;> omega

theorem addFlagged_eq (hx : x.Canonical) (hy : y.Canonical) :
    x.addFlagged y = (wrapped (x.toInt + y.toInt), decide (2 ^ 64 ≤ (x.toInt + y.toInt).natAbs)) := by
  obtain ⟨a, _ | _⟩ := x <;> obtain ⟨b, _ | _⟩ := y <;> obtain ⟨ha, ha'⟩ := hx <;> obtain ⟨hb, hb'⟩ := hy <;>
    simp only [addFlagged, Magnitude.addFlagged, absDiff, toInt, wrapped, reduceCtorEq, if_true, if_false, imp_false] at *
  all_goals split_ifs <;> simp <;> omega

end Signed

open Signed

theorem addSignedFlagged_eq {t : ℕ} {x : Signed} (ht : t < 2 ^ 64) (hx : x.Canonical) :
    Magnitude.addSignedFlagged t x =
      (((t + x.toInt) % 2 ^ 64).toNat, decide (t + x.toInt < 0 ∨ 2 ^ 64 ≤ t + x.toInt)) := by
  obtain ⟨a, _ | _⟩ := x <;> obtain ⟨ha, ha'⟩ := hx <;>
    simp only [Magnitude.addSignedFlagged, Magnitude.addFlagged, Magnitude.subFlagged, toInt, reduceCtorEq,
      if_true, if_false, Prod.mk.injEq, decide_eq_decide] at *
  all_goals omega

/-! ## In the circuit -/

def Sgn.toField : Sgn → Fp
  | .pos => 1
  | .neg => -1

def rangeCheckFlagged (t : Fp) : Fp × Bool :=
  let adjustmentFactor : Fp := if t.val < 2 ^ 64 then 0 else if t.val < 2 ^ 65 then -1 else 1
  (t + adjustmentFactor * Account.toField (2 ^ 64), adjustmentFactor * adjustmentFactor == 1)

/-- `value` is a cache of the signed value. -/
structure CheckedSigned where
  magnitude : Fp
  sgn : Sgn
  value : Option Fp

namespace CheckedSigned

def forceValue (x : CheckedSigned) : Fp := x.value.getD (x.magnitude * x.sgn.toField)

/-- The magnitude is taken from the low limb of the field element. -/
def unchecked (x : CheckedSigned) : Signed := ⟨x.magnitude.val % 2 ^ 64, x.sgn⟩

/-- The sign that is put into the circuit for a sum. -/
def sumSgn (x y : Signed) : Sgn :=
  match x.add y with
  | some r => r.sgn
  | none => if x.sgn = .neg ∧ y.sgn = .neg then .neg else .pos

def addFlagged (x y : CheckedSigned) : CheckedSigned × Bool :=
  let sgn := sumSgn x.unchecked y.unchecked
  let magnitude := sgn.toField * (x.forceValue + y.forceValue)
  let (resMagnitude, overflow) := rangeCheckFlagged magnitude
  (⟨resMagnitude, sgn, some (sgn.toField * magnitude)⟩, overflow)

def addSignedFlagged (d : CheckedSigned) (t : Fp) : Fp × Bool := rangeCheckFlagged (t + d.forceValue)

structure Is (c : CheckedSigned) (x : Signed) : Prop where
  magnitude : c.magnitude = toField x.magnitude
  sgn : c.sgn = x.sgn
  value : ∀ v ∈ c.value, v = (x.toInt : Fp)

variable {cx cy : CheckedSigned} {x y : Signed}

theorem toField_eq_cast (n : ℕ) : toField n = ((n : ℤ) : Fp) := by
  rw [toField, Fin.ofNat_eq_cast, Int.cast_natCast]

theorem Is.forceValue_eq (hx : cx.Is x) : cx.forceValue = (x.toInt : Fp) := by
  obtain ⟨magnitude, sgn, value⟩ := cx
  obtain ⟨rfl, rfl, cached⟩ := hx
  cases value with
  | some v => exact cached v rfl
  | none =>
    obtain ⟨a, _ | _⟩ := x <;> simp [forceValue, Sgn.toField, Signed.toInt, toField_eq_cast]

theorem Is.unchecked_eq (hx : cx.Is x) (canonical : x.Canonical) : cx.unchecked = x := by
  have := prime_gt
  have bound := canonical.bound
  rw [unchecked, hx.magnitude, hx.sgn, val_toField (by omega), Nat.mod_eq_of_lt bound]

theorem rangeCheckFlagged_eq {z : ℤ} (low : -2 ^ 64 ≤ z) (high : z < 2 ^ 65) :
    rangeCheckFlagged (z : Fp) = (toField (z % 2 ^ 64).toNat, decide (z < 0 ∨ 2 ^ 64 ≤ z)) := by
  have large := prime_gt
  have val : (z : Fp).val = (z % PRIME).toNat := Fin.val_intCast ..
  have differ : ¬ (0 : Fp) = 1 := (toField_inj (by decide) (by decide)).not.2 zero_ne_one
  rw [rangeCheckFlagged, val, toField_eq_cast, toField_eq_cast, Int.toNat_of_nonneg (by omega)]
  by_cases neg : z < 0
  · have : z % PRIME = z + PRIME := by
      rw [← Int.add_emod_right, Int.emod_eq_of_lt (by omega) (by omega)]
    rw [if_neg (by omega), if_neg (by omega), show z % 2 ^ 64 = z + 2 ^ 64 by omega]
    simp [neg]
  · have : z % PRIME = z := Int.emod_eq_of_lt (by omega) (by omega)
    by_cases fits : z < 2 ^ 64
    · rw [if_pos (by omega), Int.emod_eq_of_lt (by omega) fits, decide_eq_false (by omega)]
      simp [differ]
    · rw [if_neg (by omega), if_pos (by omega), show z % 2 ^ 64 = z - 2 ^ 64 by omega,
        decide_eq_true (by omega)]
      simp [← sub_eq_add_neg]

theorem Is.addSignedFlagged_eq {t : ℕ} (ht : t < 2 ^ 64) (hx : cx.Is x) (canonical : x.Canonical) :
    cx.addSignedFlagged (toField t) =
      (toField (Magnitude.addSignedFlagged t x).1, (Magnitude.addSignedFlagged t x).2) := by
  have := canonical.bound
  have bounds : -2 ^ 64 ≤ x.toInt ∧ x.toInt < 2 ^ 64 := by
    rw [Signed.toInt]
    split_ifs <;> omega
  rw [addSignedFlagged, hx.forceValue_eq, toField_eq_cast, ← Int.cast_add,
    rangeCheckFlagged_eq (by omega) (by omega), Account.addSignedFlagged_eq ht canonical]

theorem sumSgn_eq (hx : x.Canonical) (hy : y.Canonical) : sumSgn x y = (wrapped (x.toInt + y.toInt)).sgn := by
  rw [sumSgn, Signed.add_eq hx hy]
  by_cases fits : (x.toInt + y.toInt).natAbs < 2 ^ 64
  · rw [if_pos fits]
  · -- only amounts of one sign add up to so much
    have := hx.bound
    have := hy.bound
    rw [if_neg fits]
    obtain ⟨a, _ | _⟩ := x <;> obtain ⟨b, _ | _⟩ := y <;>
      simp only [Signed.toInt, wrapped, reduceCtorEq, if_true, if_false, and_true, and_false] at * <;>
      split_ifs <;> first | rfl | omega

theorem sgn_mul (z : ℤ) : (wrapped z).sgn.toField * (z : Fp) = ((z.natAbs : ℤ) : Fp) ∧
    (wrapped z).sgn.toField * ((z.natAbs : ℤ) : Fp) = (z : Fp) := by
  by_cases neg : z < 0
  · rw [show (z.natAbs : ℤ) = -z by omega, wrapped, if_pos neg]
    simp [Sgn.toField]
  · rw [show (z.natAbs : ℤ) = z by omega, wrapped, if_neg neg]
    simp [Sgn.toField]

theorem Is.addFlagged_eq (hx : cx.Is x) (hy : cy.Is y) (canonical : x.Canonical) (canonical' : y.Canonical) :
    cx.addFlagged cy = (⟨toField (x.addFlagged y).1.magnitude, (x.addFlagged y).1.sgn,
      some ((x.toInt + y.toInt : ℤ) : Fp)⟩, (x.addFlagged y).2) := by
  have small : (x.toInt + y.toInt).natAbs < 2 ^ 65 := by
    have := canonical.bound
    have := canonical'.bound
    rw [Signed.toInt, Signed.toInt]
    split_ifs <;> omega
  rw [CheckedSigned.addFlagged, hx.unchecked_eq canonical, hy.unchecked_eq canonical', hx.forceValue_eq,
    hy.forceValue_eq, sumSgn_eq canonical canonical', ← Int.cast_add, (sgn_mul _).1,
    rangeCheckFlagged_eq (by omega) (by omega), (sgn_mul _).2, Signed.addFlagged_eq canonical canonical']
  simp only [Prod.mk.injEq, mk.injEq, and_self, and_true, decide_eq_decide]
  exact ⟨congrArg toField (by simp only [wrapped]; omega), by omega⟩

end CheckedSigned

end MinaRust.Account
