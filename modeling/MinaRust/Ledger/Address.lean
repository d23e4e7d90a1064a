/-
  Addresses of tree nodes (`address/raw.rs`): a string of bits, kept in a fixed array with
  the number of bits used.

  Equality and the index ignore the unused bits.  These are not always zero: `parent` only
  shortens the address, `prev` fills the last byte with ones, and `childLeft` takes the next
  bit as it finds it.
-/
import MinaRust.Lib.Merkle

namespace MinaRust.Ledger

open Nat BitVec List

/-- `8 * NBYTES`, the number of bits of the array of an address. -/
abbrev nbits : ℕ := 40

structure Address where
  /-- The bytes, the first bit being the most significant one. -/
  inner : BitVec nbits
  length : ℕ
  deriving DecidableEq, Repr

inductive Direction where
  | left
  | right
  deriving DecidableEq, Repr

def Direction.bit : Direction → Bool
  | .left => false
  | .right => true

namespace Address

def root : Address := ⟨0, 0⟩

def first (length : ℕ) : Address := ⟨0, length⟩

def toIndex (a : Address) : ℕ :=
  if a.length = 0 then 0 else a.inner.toNat / 2 ^ (nbits - a.length)

def toLinearIndex (a : Address) : ℕ := 2 ^ a.length + a.toIndex - 1

/-- The equality of the source, which ignores the unused bits. -/
instance : BEq Address where
  beq a b := a.length == b.length && a.toIndex == b.toIndex

def setBit (a : Address) (index : ℕ) : Address :=
  { a with inner := a.inner ||| BitVec.twoPow nbits (nbits - 1 - index) }

def get (a : Address) (index : ℕ) : Direction :=
  if a.inner.getLsbD (nbits - 1 - index) then .right else .left

def childLeft (a : Address) : Address := { a with length := a.length + 1 }

def childRight (a : Address) : Address :=
  let child := a.childLeft
  child.setBit (child.length - 1)

def parent (a : Address) : Option Address :=
  if a.length = 0 then none else some { a with length := a.length - 1 }

def nusedBytes (a : Address) : ℕ := (a.length - 1) / 8 + 1

/-- The bits of `unused` stand in the rest of the last byte, the following bytes stay. -/
def withIndex (a : Address) (index unused : ℕ) : Address :=
  { a with
    inner := BitVec.ofNat nbits (index * 2 ^ (nbits - a.length) +
      unused % 2 ^ (8 * a.nusedBytes - a.length) * 2 ^ (nbits - 8 * a.nusedBytes) +
      a.inner.toNat % 2 ^ (nbits - 8 * a.nusedBytes)) }

/-- The next address on the level: the unused bits of the last byte are cleared. -/
def next (a : Address) : Option Address :=
  if a.length = 0 then none
  else if a.toIndex + 1 < 2 ^ a.length then some (a.withIndex (a.toIndex + 1) 0)
  else none

/-- The previous address on the level: the unused bits of the last byte are set. -/
def prev (a : Address) : Option Address :=
  if a.toIndex = 0 then none
  else some (a.withIndex (a.toIndex - 1) (2 ^ (8 * a.nusedBytes - a.length) - 1))

def fromIndex (index length : ℕ) : Address :=
  ⟨BitVec.ofNat nbits (index % 2 ^ length * 2 ^ (nbits - length)), length⟩

def isBefore (a other : Address) : Bool :=
  a.toIndex ≤ { other with length := a.length }.toIndex

def isParentOf (a other : Address) : Bool :=
  a.length == 0 || a == { other with length := a.length }

def directions (a : Address) : List Direction := (List.range a.length).map a.get

/-! ## The used and the unused bits -/

def Clean (a : Address) : Prop := a.inner.toNat % 2 ^ (nbits - a.length) = 0

instance (a : Address) : Decidable a.Clean := inferInstanceAs (Decidable (_ = _))

theorem clean_root : root.Clean := by decide

theorem toIndex_eq (a : Address) : a.toIndex = a.inner.toNat / 2 ^ (nbits - a.length) := by
  rw [toIndex]
  split
  · next h =>
    rw [h, Nat.sub_zero, Nat.div_eq_of_lt a.inner.isLt]
  · rfl

variable {a : Address}

theorem toIndex_lt (h : a.length ≤ nbits) : a.toIndex < 2 ^ a.length := by
  rw [toIndex_eq, Nat.div_lt_iff_lt_mul (by positivity), ← pow_add, Nat.add_sub_cancel' h]
  exact a.inner.isLt

variable {b : Address}

theorem beq_eq_true : (a == b) = true ↔ a.length = b.length ∧ a.toIndex = b.toIndex := by
  show (a.length == b.length && a.toIndex == b.toIndex) = true ↔ _
  rw [Bool.and_eq_true, beq_iff_eq, beq_iff_eq]

theorem toIndex_succ (h : a.length < nbits) : a.toIndex = a.childLeft.toIndex / 2 := by
  rw [toIndex_eq, toIndex_eq, Nat.div_div_eq_div_mul, ← pow_succ]
  congr 2
  show nbits - a.length = nbits - (a.length + 1) + 1
  omega

theorem toIndex_childLeft (h : a.length < nbits) (clean : a.Clean) :
    a.childLeft.toIndex = 2 * a.toIndex ∧ a.childLeft.Clean := by
  obtain ⟨k, hk⟩ : ∃ k, nbits - a.length = k + 1 := ⟨nbits - a.length - 1, by omega⟩
  have hk' : nbits - a.childLeft.length = k := by
    show nbits - (a.length + 1) = k
    omega
  have dvd : 2 ^ (k + 1) ∣ a.inner.toNat := by
    rw [← hk]
    exact dvd_of_mod_eq_zero clean
  obtain ⟨q, hq⟩ := dvd
  rw [toIndex_eq, toIndex_eq, Clean, hk, hk']
  show a.inner.toNat / 2 ^ k = _ ∧ a.inner.toNat % 2 ^ k = 0
  rw [hq, pow_succ, Nat.mul_assoc]
  refine ⟨?_, mul_mod_right _ _⟩
  rw [Nat.mul_div_cancel_left _ (by positivity), ← Nat.mul_assoc, Nat.mul_div_cancel_left _ (by positivity)]

theorem toIndex_childRight (h : a.length < nbits) (clean : a.Clean) :
    a.childRight.toIndex = 2 * a.toIndex + 1 ∧ a.childRight.Clean := by
  obtain ⟨k, hk⟩ : ∃ k, nbits - a.length = k + 1 := ⟨nbits - a.length - 1, by omega⟩
  have hk' : nbits - a.childRight.length = k := by
    show nbits - (a.length + 1) = k
    omega
  obtain ⟨q, hq⟩ : 2 ^ (k + 1) ∣ a.inner.toNat := by
    rw [← hk]
    exact dvd_of_mod_eq_zero clean
  have bits : a.childRight.inner.toNat = 2 ^ k * (2 * q + 1) := by
    have pos : nbits - 1 - (a.length + 1 - 1) = k := by omega
    have lt : 2 ^ k < 2 ^ nbits := Nat.pow_lt_pow_right (by norm_num) (by omega)
    show (a.inner ||| BitVec.twoPow nbits (nbits - 1 - (a.length + 1 - 1))).toNat = _
    rw [pos, BitVec.toNat_or, BitVec.toNat_twoPow, Nat.mod_eq_of_lt lt, hq,
      ← Nat.two_pow_add_eq_or_of_lt (Nat.pow_lt_pow_right (by norm_num) (Nat.lt_succ_self k)) q,
      pow_succ]
    ring
  rw [toIndex_eq, toIndex_eq, Clean, hk, hk', bits, hq, mul_mod_right,
    Nat.mul_div_cancel_left _ (by positivity), Nat.mul_div_cancel_left _ (by positivity)]
  exact ⟨rfl, rfl⟩

variable {n : ℕ}

theorem toIndex_shorten (h : n ≤ a.length) (hb : a.length ≤ nbits) :
    { a with length := n }.toIndex = a.toIndex / 2 ^ (a.length - n) := by
  rw [toIndex_eq, toIndex_eq, Nat.div_div_eq_div_mul, ← pow_add]
  congr 2
  show nbits - n = nbits - a.length + (a.length - n)
  omega

theorem isBefore_iff {leaf : Address} (h : a.length ≤ leaf.length) (hb : leaf.length ≤ nbits) :
    a.isBefore leaf = true ↔ a.toIndex ≤ leaf.toIndex / 2 ^ (leaf.length - a.length) := by
  rw [isBefore, toIndex_shorten h hb, decide_eq_true_eq]

theorem isParentOf_iff {leaf : Address} (h : a.length ≤ leaf.length) (hb : leaf.length ≤ nbits) :
    a.isParentOf leaf = true ↔ leaf.toIndex / 2 ^ (leaf.length - a.length) = a.toIndex := by
  rw [isParentOf, Bool.or_eq_true, beq_iff_eq, ← toIndex_shorten h hb]
  constructor
  · rintro (h0 | heq)
    · rw [toIndex, toIndex, if_pos h0, if_pos h0]
    · exact (beq_eq_true.1 heq).2.symm
  · exact fun heq => Or.inr (beq_eq_true.2 ⟨rfl, heq.symm⟩)

/-! ## Moving on a level -/

theorem toIndex_fromIndex {i : ℕ} (hi : i < 2 ^ n) (hn : n ≤ nbits) : (fromIndex i n).toIndex = i := by
  rw [toIndex_eq]
  have lt : i * 2 ^ (nbits - n) < 2 ^ nbits := by
    calc i * 2 ^ (nbits - n) < 2 ^ n * 2 ^ (nbits - n) :=
          mul_lt_mul_of_pos_right hi (by positivity)
      _ = 2 ^ nbits := by rw [← pow_add, Nat.add_sub_cancel' hn]
  show (BitVec.ofNat nbits (i % 2 ^ n * 2 ^ (nbits - n))).toNat / 2 ^ (nbits - n) = i
  rw [Nat.mod_eq_of_lt hi, BitVec.toNat_ofNat, Nat.mod_eq_of_lt lt, Nat.mul_div_cancel _ (by positivity)]

theorem toIndex_withIndex {i unused : ℕ} (h0 : 0 < a.length) (hb : a.length ≤ nbits) (hi : i < 2 ^ a.length) :
    (a.withIndex i unused).toIndex = i := by
  have used : a.length ≤ 8 * a.nusedBytes ∧ 8 * a.nusedBytes ≤ nbits := by
    have : nbits = 40 := rfl
    rw [nusedBytes]
    omega
  obtain ⟨p, hp⟩ : ∃ p, 8 * a.nusedBytes - a.length = p := ⟨_, rfl⟩
  obtain ⟨q, hq⟩ : ∃ q, nbits - 8 * a.nusedBytes = q := ⟨_, rfl⟩
  have hpq : nbits - a.length = p + q := by omega
  -- the bits after the used ones are less than one unit of the index
  have rest : unused % 2 ^ p * 2 ^ q + a.inner.toNat % 2 ^ q < 2 ^ (p + q) := by
    have h1 : unused % 2 ^ p + 1 ≤ 2 ^ p := mod_lt _ (by positivity)
    have h2 : a.inner.toNat % 2 ^ q < 2 ^ q := mod_lt _ (by positivity)
    calc unused % 2 ^ p * 2 ^ q + a.inner.toNat % 2 ^ q
        < unused % 2 ^ p * 2 ^ q + 2 ^ q := by omega
      _ = (unused % 2 ^ p + 1) * 2 ^ q := by ring
      _ ≤ 2 ^ p * 2 ^ q := mul_le_mul_right _ h1
      _ = 2 ^ (p + q) := (pow_add 2 p q).symm
  have lt : i * 2 ^ (p + q) + (unused % 2 ^ p * 2 ^ q + a.inner.toNat % 2 ^ q) < 2 ^ nbits := by
    calc i * 2 ^ (p + q) + (unused % 2 ^ p * 2 ^ q + a.inner.toNat % 2 ^ q)
        < i * 2 ^ (p + q) + 2 ^ (p + q) := by omega
      _ = (i + 1) * 2 ^ (p + q) := by ring
      _ ≤ 2 ^ a.length * 2 ^ (p + q) := mul_le_mul_right _ hi
      _ = 2 ^ nbits := by rw [← pow_add, ← hpq, Nat.add_sub_cancel' hb]
  rw [toIndex_eq]
  show (BitVec.ofNat nbits (i * 2 ^ (nbits - a.length) + unused % 2 ^ (8 * a.nusedBytes - a.length) *
    2 ^ (nbits - 8 * a.nusedBytes) + a.inner.toNat % 2 ^ (nbits - 8 * a.nusedBytes))).toNat /
      2 ^ (nbits - a.length) = i
  rw [hp, hq, hpq, add_assoc, BitVec.toNat_ofNat, Nat.mod_eq_of_lt lt,
    add_comm, add_mul_div_right _ _ (by positivity), Nat.div_eq_of_lt rest, zero_add]

theorem next_eq_some (hb : a.length ≤ nbits) (h : a.next = some b) :
    b.length = a.length ∧ b.toIndex = a.toIndex + 1 ∧ b.toIndex < 2 ^ a.length := by
  rw [next] at h
  split at h
  · cases h
  · next h0 =>
    split at h
    · next hlt =>
      cases h
      rw [toIndex_withIndex (by omega) hb hlt]
      exact ⟨rfl, rfl, hlt⟩
    · cases h

theorem prev_eq_none : a.prev = none ↔ a.toIndex = 0 := by
  rw [prev]
  split <;> simp_all

theorem prev_eq_some (hb : a.length ≤ nbits) (h : a.prev = some b) :
    b.length = a.length ∧ b.toIndex + 1 = a.toIndex := by
  rw [prev] at h
  split at h
  · cases h
  · next h0 =>
    cases h
    have hlen : 0 < a.length := by
      rw [Nat.pos_iff_ne_zero]
      intro hz
      rw [toIndex, if_pos hz] at h0
      exact h0 rfl
    have hlt := toIndex_lt hb
    rw [toIndex_withIndex hlen hb (by omega)]
    exact ⟨rfl, by omega⟩

/-! ## The linear index -/

theorem linear_injective {m i j : ℕ} (hi : i < 2 ^ m) (hj : j < 2 ^ n) (h : 2 ^ m + i - 1 = 2 ^ n + j - 1) :
    m = n ∧ i = j := by
  have hm := Nat.two_pow_pos m
  have hn := Nat.two_pow_pos n
  have same : m = n := by
    rcases Nat.lt_trichotomy m n with hlt | heq | hlt
    · have := Nat.pow_le_pow_right (n := 2) (by norm_num) hlt
      rw [pow_succ] at this
      omega
    · exact heq
    · have := Nat.pow_le_pow_right (n := 2) (by norm_num) hlt
      rw [pow_succ] at this
      omega
  subst same
  omega

/-! ## Directions -/

theorem toIndex_snoc (h : n < nbits) : { a with length := n + 1 }.toIndex =
      2 * { a with length := n }.toIndex + (a.get n).bit.toNat := by
  have half := toIndex_succ (a := { a with length := n }) h
  have bit : (a.get n).bit.toNat = { a with length := n + 1 }.toIndex % 2 := by
    rw [toIndex_eq, get, BitVec.getLsbD, testBit_eq_decide_div_mod_eq]
    show _ = a.inner.toNat / 2 ^ (nbits - (n + 1)) % 2
    rw [show nbits - 1 - n = nbits - (n + 1) by omega]
    rcases mod_two_eq_zero_or_one (a.inner.toNat / 2 ^ (nbits - (n + 1))) with h0 | h1
    · simp [h0, Direction.bit]
    · simp [h1, Direction.bit]
  have half' : { a with length := n }.toIndex = { a with length := n + 1 }.toIndex / 2 := half
  omega

theorem descend_directions (h : a.length ≤ nbits) :
    Merkle.descend 0 (a.directions.map Direction.bit) = a.toIndex := by
  have upTo : ∀ n ≤ nbits, Merkle.descend 0 (((List.range n).map a.get).map Direction.bit) =
      { a with length := n }.toIndex := by
    intro n
    induction n with
    | zero => exact fun _ => rfl
    | succ n ih =>
      intro hn
      rw [toIndex_snoc (lt_of_succ_le hn), ← ih (le_of_succ_le hn), range_succ,
        map_append, map_append, Merkle.descend, foldl_append]
      rfl
  exact upTo a.length h

end Address

end MinaRust.Ledger
