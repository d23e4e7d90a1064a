/-
  Linear orders with some pairs turned round.

  `Flipped k U` compares by the key `k`, except that the pairs in `U` are compared
  the other way.  Such a comparison is still total; `flipped_trans_iff` says when
  it is transitive.
-/
import Mathlib

namespace MinaRust

variable {α K : Type} [LinearOrder K] {k : α → K} {U : α → α → Prop}

/-- `x` is before `y`: by the key, or against it for a pair in `U`. -/
def Flipped (k : α → K) (U : α → α → Prop) (x y : α) : Prop :=
  (¬ U x y ∧ k x < k y) ∨ (U x y ∧ k y < k x)

theorem flipped_of_lt {x y : α} (h : k x < k y) : Flipped k U x y ↔ ¬ U x y := by
  simp [Flipped, h, h.not_gt]

theorem flipped_of_gt {x y : α} (h : k y < k x) : Flipped k U x y ↔ U x y := by
  simp [Flipped, h, h.not_gt]

/-- **A flipped order is transitive exactly when the outer two of three elements are turned
    round like one of the inner pairs.** -/
theorem flipped_trans_iff {S : Set α} (inj : ∀ x ∈ S, ∀ y ∈ S, k x = k y → x = y) (symm : ∀ x y, U x y ↔ U y x) :
    (∀ x ∈ S, ∀ y ∈ S, ∀ z ∈ S, Flipped k U x y → Flipped k U y z → Flipped k U x z) ↔
      ∀ x ∈ S, ∀ y ∈ S, ∀ z ∈ S, k x < k y → k y < k z → ((U x z ↔ U x y) ∨ (U x z ↔ U y z)) := by
  constructor
  · intro trans x hx y hy z hz xy yz
    have up := trans x hx y hy z hz
    have down := trans z hz y hy x hx
    rw [flipped_of_lt xy, flipped_of_lt yz, flipped_of_lt (xy.trans yz)] at up
    rw [flipped_of_gt yz, flipped_of_gt xy, flipped_of_gt (xy.trans yz), symm z y, symm y x,
      symm z x] at down
    tauto
  · intro cond x hx y hy z hz
    have sorted := fun {x y z} hx hy hz => cond x hx y hy z hz
    rcases lt_trichotomy (k x) (k y) with xy | xy | xy
    · rcases lt_trichotomy (k y) (k z) with yz | yz | yz
      · rw [flipped_of_lt xy, flipped_of_lt yz, flipped_of_lt (xy.trans yz)]
        have := sorted hx hy hz xy yz
        tauto
      · rw [inj y hy z hz yz]
        exact fun h _ => h
      · rcases lt_trichotomy (k x) (k z) with xz | xz | xz
        · rw [flipped_of_lt xy, flipped_of_gt yz, flipped_of_lt xz, symm y z]
          have := sorted hx hz hy xz yz
          tauto
        · rw [inj x hx z hz xz, flipped_of_lt (xz ▸ xy), flipped_of_gt (xz ▸ xy), symm y z]
          exact fun h h' => absurd h' h
        · rw [flipped_of_lt xy, flipped_of_gt yz, flipped_of_gt xz, symm y z, symm x z]
          have := sorted hz hx hy xz xy
          tauto
    · rw [inj x hx y hy xy]
      exact fun _ h => h
    · rcases lt_trichotomy (k y) (k z) with yz | yz | yz
      · rcases lt_trichotomy (k x) (k z) with xz | xz | xz
        · rw [flipped_of_gt xy, flipped_of_lt yz, flipped_of_lt xz, symm x y]
          have := sorted hy hx hz xy xz
          tauto
        · rw [inj x hx z hz xz, flipped_of_gt (xz ▸ xy), flipped_of_lt (xz ▸ xy), symm z y]
          exact fun h h' => absurd h h'
        · rw [flipped_of_gt xy, flipped_of_lt yz, flipped_of_gt xz, symm x y, symm x z]
          have := sorted hy hz hx yz xz
          tauto
      · rw [inj y hy z hz yz]
        exact fun h _ => h
      · rw [flipped_of_gt xy, flipped_of_gt yz, flipped_of_gt (yz.trans xy), symm x y, symm y z, symm x z]
        have := sorted hz hy hx yz xy
        tauto

end MinaRust
