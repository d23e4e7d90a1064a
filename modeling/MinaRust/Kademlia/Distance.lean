/-
  Kademlia keys, their distance and the bucket a distance belongs to.

  Keys are 256-bit numbers and the distance of two keys is their `XOR`.  The bucket index of
  a distance counts its leading zeros (`to_index`), and the distance made of an index is the
  largest one with that many (`From<usize>`).
-/
import Mathlib

namespace MinaRust.Kademlia

open Nat BitVec

/-- `P2pNetworkKadKey` -/
abbrev Key := BitVec 256

/-- `P2pNetworkKadDist` -/
abbrev Dist := BitVec 256

def Key.distance (a b : Key) : Dist := a ^^^ b

def Dist.bits (d : Dist) : ℕ := if d = 0 then 0 else d.toNat.log2 + 1

def Dist.toIndex (d : Dist) : ℕ := 256 - d.bits

/-- `From<usize> for P2pNetworkKadDist`: `U256::MAX >> i`. -/
def Dist.ofIndex (i : ℕ) : Dist := BitVec.allOnes 256 >>> i

def SharesBits (a b : Key) (i : ℕ) : Prop := ∀ j < i, a.getMsbD j = b.getMsbD j

instance (a b : Key) (i : ℕ) : Decidable (SharesBits a b i) :=
  inferInstanceAs (Decidable (∀ j < i, a.getMsbD j = b.getMsbD j))

namespace Dist

variable {d : Dist} {i : ℕ}

theorem bits_le_iff : d.bits ≤ i ↔ d.toNat < 2 ^ i := by
  unfold bits
  split
  · next zero => simp [zero]
  · next nonzero =>
    have pos : d.toNat ≠ 0 := fun zero => nonzero (eq_of_toNat_eq (by simpa using zero))
    rw [succ_le_iff, log2_lt pos]

theorem bits_le (d : Dist) : d.bits ≤ 256 := bits_le_iff.2 d.isLt

theorem le_toIndex_iff (small : i ≤ 256) : i ≤ d.toIndex ↔ d.toNat < 2 ^ (256 - i) := by
  have := d.bits_le
  rw [toIndex, ← bits_le_iff]
  omega

theorem toNat_ofIndex (i : ℕ) : (ofIndex i).toNat = 2 ^ (256 - i) - 1 := by
  rw [ofIndex, toNat_ushiftRight, toNat_allOnes, shiftRight_eq_div_pow]
  by_cases small : i ≤ 256
  · have split : 2 ^ 256 = 2 ^ i * 2 ^ (256 - i) := by rw [← pow_add, Nat.add_sub_cancel' small]
    have positive : 0 < 2 ^ i * 2 ^ (256 - i) := by positivity
    rw [split, Nat.mul_sub_div 0 _ _ positive, Nat.zero_div]
  · have large : 2 ^ 256 - 1 < 2 ^ i :=
      (Nat.sub_lt (by positivity) one_pos).trans_le (Nat.pow_le_pow_right (by norm_num) (by omega))
    rw [Nat.div_eq_of_lt large, Nat.sub_eq_zero_of_le (by omega : 256 ≤ i)]
    rfl

theorem ofIndex_lt {j : ℕ} (lt : i < j) (inside : i < 256) : ofIndex j < ofIndex i := by
  have powers : 2 ^ (256 - j) < 2 ^ (256 - i) := Nat.pow_lt_pow_right (by norm_num) (by omega)
  have positive : 0 < 2 ^ (256 - j) := by positivity
  rw [BitVec.lt_def, toNat_ofIndex, toNat_ofIndex]
  omega

theorem le_toIndex_of_lt (small : i ≤ 256) (closer : d < ofIndex i) : i ≤ d.toIndex := by
  rw [BitVec.lt_def, toNat_ofIndex] at closer
  rw [le_toIndex_iff small]
  omega

theorem toIndex_lt_iff (small : i ≤ 256) (farther : ofIndex i ≤ d) : d.toIndex < i ↔ d ≠ ofIndex i := by
  have positive : 0 < 2 ^ (256 - i) := by positivity
  rw [← not_le, le_toIndex_iff small, ne_eq, ← toNat_inj, toNat_ofIndex]
  rw [le_def, toNat_ofIndex] at farther
  omega

end Dist

@[simp] theorem Key.distance_self (a : Key) : a.distance a = 0 := xor_self

theorem sharesBits_iff {a b : Key} {i : ℕ} (small : i ≤ 256) :
    SharesBits a b i ↔ (a.distance b).toNat < 2 ^ (256 - i) := by
  constructor
  · intro shares
    refine lt_pow_two_of_testBit _ fun k high => ?_
    rw [← BitVec.getLsbD, Key.distance, BitVec.getLsbD_xor]
    by_cases inside : k < 256
    · -- bit `k` from the right is bit `255 - k` from the left
      have same := shares (255 - k) (by omega)
      rw [getMsbD_eq_getLsbD, getMsbD_eq_getLsbD] at same
      have back : 256 - 1 - (255 - k) = k := by omega
      have left : 255 - k < 256 := by omega
      simp only [left, decide_true, Bool.true_and, back] at same
      rw [same, Bool.xor_self]
    · rw [getLsbD_of_ge a k (by omega), getLsbD_of_ge b k (by omega)]
      rfl
  · intro near j early
    have bit : (a.distance b).getLsbD (255 - j) = false :=
      Nat.testBit_lt_two_pow (near.trans_le (Nat.pow_le_pow_right (by norm_num) (by omega)))
    rw [Key.distance, BitVec.getLsbD_xor] at bit
    have same : a.getLsbD (255 - j) = b.getLsbD (255 - j) := by simpa using bit
    rw [getMsbD_eq_getLsbD, getMsbD_eq_getLsbD]
    exact congrArg _ same

theorem sharesBits_iff_le_toIndex {a b : Key} {i : ℕ} (small : i ≤ 256) :
    SharesBits a b i ↔ i ≤ (a.distance b).toIndex := by
  rw [sharesBits_iff small, Dist.le_toIndex_iff small]

end MinaRust.Kademlia
