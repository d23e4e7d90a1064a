/-
  Hashes of a perfect binary tree.

  The `i`-th node at height `h` lies above the leaves `j` with `j / 2 ^ h = i`; its children
  are the nodes `2 * i` and `2 * i + 1` one level below.
-/
import Mathlib.Tactic

namespace MinaRust.Merkle

open List Bool Nat

variable {H : Type}

def hashAt (node : ℕ → H → H → H) (leaf : ℕ → H) : ℕ → ℕ → H
  | 0, i => leaf i
  | h + 1, i => node h (hashAt node leaf h (2 * i)) (hashAt node leaf h (2 * i + 1))

def constAt (node : ℕ → H → H → H) (e : H) : ℕ → H
  | 0 => e
  | h + 1 => node h (constAt node e h) (constAt node e h)

variable {node : ℕ → H → H → H} {leaf leaf' : ℕ → H}

theorem div_two_pow_succ (j h : ℕ) : j / 2 ^ (h + 1) = j / 2 ^ h / 2 := by
  rw [pow_succ, Nat.div_div_eq_div_mul]

theorem hashAt_congr : ∀ {h i : ℕ}, (∀ j, j / 2 ^ h = i → leaf j = leaf' j) →
    hashAt node leaf h i = hashAt node leaf' h i
  | 0, i, same => same i (by simp)
  | h + 1, i, same => by
    have below : ∀ c, c / 2 = i → hashAt node leaf h c = hashAt node leaf' h c := fun c hc =>
      hashAt_congr fun j hj => same j (by rw [div_two_pow_succ, hj, hc])
    rw [hashAt, hashAt, below (2 * i) (by omega), below (2 * i + 1) (by omega)]

theorem hashAt_const {e : H} : ∀ {h i : ℕ}, (∀ j, j / 2 ^ h = i → leaf j = e) →
    hashAt node leaf h i = constAt node e h
  | 0, i, same => same i (by simp)
  | h + 1, i, same => by
    have below : ∀ c, c / 2 = i → hashAt node leaf h c = constAt node e h := fun c hc =>
      hashAt_const fun j hj => same j (by rw [div_two_pow_succ, hj, hc])
    rw [hashAt, constAt, below (2 * i) (by omega), below (2 * i + 1) (by omega)]

/-! ## Paths -/

/-- One step of a path: the side that the path takes, with the hash on the
    other side. -/
inductive Step (H : Type) where
  | left (right : H)
  | right (left : H)
  deriving DecidableEq, Repr

/-- The hash reached from `x` at height `h`, going up along `path`. -/
def climb (node : ℕ → H → H → H) : ℕ → H → List (Step H) → H
  | _, x, [] => x
  | h, x, .left r :: path => climb node (h + 1) (node h x r) path
  | h, x, .right l :: path => climb node (h + 1) (node h l x) path

/-- The node reached from the node `i` by the directions `ds` (`true` is right). -/
def descend (i : ℕ) (ds : List Bool) : ℕ := ds.foldl (fun i d => 2 * i + d.toNat) i

/-- The siblings met going down from the node `i` at height `h`, lowest first. -/
def siblings (node : ℕ → H → H → H) (leaf : ℕ → H) : ℕ → ℕ → List Bool → List (Step H)
  | h + 1, i, false :: ds =>
    siblings node leaf h (2 * i) ds ++ [.left (hashAt node leaf h (2 * i + 1))]
  | h + 1, i, true :: ds =>
    siblings node leaf h (2 * i + 1) ds ++ [.right (hashAt node leaf h (2 * i))]
  | _, _, _ => []

theorem climb_append : ∀ (p q : List (Step H)) (h : ℕ) (x : H),
    climb node h x (p ++ q) = climb node (h + p.length) (climb node h x p) q
  | [], q, h, x => rfl
  | .left r :: p, q, h, x => by
    rw [cons_append, climb, climb, climb_append p, length_cons]
    congr 1
    omega
  | .right l :: p, q, h, x => by
    rw [cons_append, climb, climb, climb_append p, length_cons]
    congr 1
    omega

theorem length_siblings : ∀ (ds : List Bool) (h i : ℕ), ds.length ≤ h →
    (siblings node leaf h i ds).length = ds.length
  | [], h, i, _ => by cases h <;> rfl
  | d :: ds, 0, i, hl => by simp at hl
  | d :: ds, h + 1, i, hl => by
    have := length_siblings ds h
    cases d <;> simp [siblings, this _ (by simpa using hl)]

theorem siblings_congr : ∀ {ds : List Bool} {h i : ℕ}, (∀ j, j / 2 ^ h = i → leaf j = leaf' j) →
    siblings node leaf h i ds = siblings node leaf' h i ds
  | [], h, i, _ => by cases h <;> rfl
  | d :: ds, 0, i, _ => rfl
  | d :: ds, h + 1, i, same => by
    have below : ∀ c, c / 2 = i → ∀ j, j / 2 ^ h = c → leaf j = leaf' j := fun c hc j hj =>
      same j (by rw [div_two_pow_succ, hj, hc])
    have left := below (2 * i) (by omega)
    have right := below (2 * i + 1) (by omega)
    cases d with
    | false => rw [siblings, siblings, siblings_congr left, hashAt_congr right]
    | true => rw [siblings, siblings, siblings_congr right, hashAt_congr left]

/-- **Paths.**  Climbing the siblings from the node they lead to gives the hash
    of the node they start from. -/
theorem climb_siblings : ∀ (ds : List Bool) (h i : ℕ), climb node h (hashAt node leaf h (descend i ds))
      (siblings node leaf (h + ds.length) i ds) = hashAt node leaf (h + ds.length) i
  | [], h, i => by cases h <;> rfl
  | d :: ds, h, i => by
    have ih := climb_siblings ds h (2 * i + d.toNat)
    have len : (siblings node leaf (h + ds.length) (2 * i + d.toNat) ds).length = ds.length :=
      length_siblings ds _ _ (by omega)
    rw [length_cons, ← add_assoc]
    cases d with
    | false =>
      rw [siblings, climb_append]
      simp only [toNat_false, add_zero] at ih len
      rw [len, descend, foldl_cons]
      simp only [toNat_false, add_zero]
      rw [← descend, ih]
      rfl
    | true =>
      rw [siblings, climb_append]
      simp only [toNat_true] at ih len
      rw [len, descend, foldl_cons]
      simp only [toNat_true]
      rw [← descend, ih]
      rfl

theorem descend_div : ∀ (ds : List Bool) (i : ℕ), descend i ds / 2 ^ ds.length = i
  | [], i => by simp [descend]
  | d :: ds, i => by
    have ih := descend_div ds (2 * i + d.toNat)
    rw [descend, foldl_cons, ← descend, length_cons, div_two_pow_succ, ih]
    have := d.toNat_le
    omega

theorem siblings_update : ∀ {ds : List Bool} {i : ℕ},
    (∀ j, j / 2 ^ ds.length = i → j ≠ descend i ds → leaf j = leaf' j) →
    siblings node leaf ds.length i ds = siblings node leaf' ds.length i ds
  | [], i, _ => rfl
  | d :: ds, i, same => by
    have below : ∀ c, c / 2 = i → ∀ j, j / 2 ^ ds.length = c → j / 2 ^ (d :: ds).length = i :=
      fun c hc j hj => by rw [length_cons, div_two_pow_succ, hj, hc]
    have le := d.toNat_le
    have down : siblings node leaf ds.length (2 * i + d.toNat) ds =
        siblings node leaf' ds.length (2 * i + d.toNat) ds :=
      siblings_update fun j hj => same j (below _ (by omega) j hj)
    have side : ∀ c, c / 2 = i → c ≠ 2 * i + d.toNat →
        hashAt node leaf ds.length c = hashAt node leaf' ds.length c :=
      fun c hc ne => hashAt_congr fun j hj => same j (below c hc j hj) fun eq => ne (by
        rw [← hj, eq]
        exact descend_div ds _)
    cases d with
    | false =>
      simp only [toNat_false, add_zero] at down side
      rw [length_cons, siblings, siblings, down, side (2 * i + 1) (by omega) (by omega)]
    | true =>
      simp only [toNat_true] at down side
      rw [length_cons, siblings, siblings, down, side (2 * i) (by omega) (by omega)]

/-- **Updates.**  A path climbed from a new leaf gives the hash of the updated tree. -/
theorem climb_update {ds : List Bool} {i : ℕ}
    (same : ∀ j, j / 2 ^ ds.length = i → j ≠ descend i ds → leaf j = leaf' j) :
    climb node 0 (leaf' (descend i ds)) (siblings node leaf ds.length i ds) =
      hashAt node leaf' ds.length i := by
  have climbed : climb node 0 (hashAt node leaf' 0 (descend i ds)) (siblings node leaf' (0 + ds.length) i ds) =
      hashAt node leaf' (0 + ds.length) i := climb_siblings ds 0 i
  rw [zero_add] at climbed
  rw [siblings_update same]
  exact climbed

theorem hashAt_injective (inj : ∀ h a b c d, node h a b = node h c d → a = c ∧ b = d) :
    ∀ {h i : ℕ}, hashAt node leaf h i = hashAt node leaf' h i → ∀ j, j / 2 ^ h = i → leaf j = leaf' j
  | 0, i, eq, j, hj => by
    rw [pow_zero, Nat.div_one] at hj
    rw [hj]
    exact eq
  | h + 1, i, eq, j, hj => by
    obtain ⟨left, right⟩ := inj _ _ _ _ _ eq
    rw [div_two_pow_succ] at hj
    rcases even_or_odd' (j / 2 ^ h) with ⟨c, hc | hc⟩
    · exact hashAt_injective inj left j (by omega)
    · exact hashAt_injective inj right j (by omega)

end MinaRust.Merkle
