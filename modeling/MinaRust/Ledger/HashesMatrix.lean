/-
  The cache of node hashes (`HashesMatrix` of `tree.rs`) and the hash functions it is used
  with (`TreeVersion`).

  A matrix is *sound* for a view of the accounts when every hash it holds is the hash of that
  node in the perfect tree over the view.
-/
import MinaRust.Lib.Checked
import MinaRust.Lib.HashMap
import MinaRust.Ledger.Address

namespace MinaRust.Ledger

open List AList Address Nat

inductive Panic where
  /-- `assert!(old.is_none())` in `HashesMatrix::set`. -/
  | hashAlreadySet
  | indexOutOfBounds
  | unwrapNone
  /-- `assert_eq!(location.to_index(), self.accounts.len())` in `create_account`. -/
  | locationMismatch
  /-- "invalid naccounts counter". -/
  | invalidNaccounts
  /-- There is no mask at the given place; a mask in hand always has one. -/
  | noMask
  deriving DecidableEq, Repr

/-- Accounts and their hashes: `Account::empty`, `Account::id`, `hash_leaf` and
    `hash_node`. -/
structure TreeVersion (A I F : Type) where
  empty : A
  id : A → I
  hashLeaf : A → F
  hashNode : ℕ → F → F → F

variable {A I F : Type}

namespace TreeVersion

variable (V : TreeVersion A I F)

def emptyHashAtHeight (height : ℕ) : F :=
  (List.range height).foldl (fun prevHash height => V.hashNode height prevHash prevHash)
    (V.hashLeaf V.empty)

def leafHash (account : Option A) : F := account.elim (V.hashLeaf V.empty) V.hashLeaf

/-- The hash of the `i`-th node at height `h` of the full tree over a view. -/
def nodeHash (view : ℕ → Option A) (h i : ℕ) : F :=
  Merkle.hashAt V.hashNode (fun j => V.leafHash (view j)) h i

theorem emptyHashAtHeight_eq : ∀ h : ℕ,
    V.emptyHashAtHeight h = Merkle.constAt V.hashNode (V.hashLeaf V.empty) h
  | 0 => rfl
  | h + 1 => by
    rw [emptyHashAtHeight, range_succ, foldl_append, ← emptyHashAtHeight, emptyHashAtHeight_eq h]
    rfl

variable {V}

theorem nodeHash_congr {view view' : ℕ → Option A} {h i : ℕ}
    (same : ∀ j, j / 2 ^ h = i → view j = view' j) : V.nodeHash view h i = V.nodeHash view' h i :=
  Merkle.hashAt_congr fun j hj => by rw [same j hj]

theorem nodeHash_empty {view : ℕ → Option A} {h i : ℕ}
    (none : ∀ j, j / 2 ^ h = i → view j = none) : V.nodeHash view h i = V.emptyHashAtHeight h := by
  rw [emptyHashAtHeight_eq]
  exact Merkle.hashAt_const fun j hj => by
    rw [none j hj]
    rfl

end TreeVersion

/-- The number of hashes in `HASH_EMPTIES`. -/
def rangeHeight : ℕ := 36

structure HashesMatrix (F : Type) where
  matrix : HashMap ℕ F
  emptyHashes : List (Option F)
  ledgerDepth : ℕ

namespace HashesMatrix

def new (ledgerDepth : ℕ) : HashesMatrix F := ⟨∅, List.replicate ledgerDepth none, ledgerDepth⟩

def get (m : HashesMatrix F) (addr : Address) : Option F := m.matrix.lookup addr.toLinearIndex

def set (m : HashesMatrix F) (addr : Address) (hash : F) : Except Panic (HashesMatrix F) :=
  match m.matrix.lookup addr.toLinearIndex with
  | some _ => .error .hashAlreadySet
  | none => .ok { m with matrix := m.matrix.insert addr.toLinearIndex hash }

def transfertHashes (m hashes : HashesMatrix F) : HashesMatrix F :=
  { m with matrix := hashes.matrix.entries.foldl (fun matrix e => matrix.insert e.1 e.2) m.matrix }

def invalidateLoop : ℕ → Address → HashMap ℕ F → HashMap ℕ F
  | 0, addr, matrix => matrix.erase addr.toLinearIndex
  | n + 1, addr, matrix =>
    match addr.parent with
    | some parent => invalidateLoop n parent (matrix.erase addr.toLinearIndex)
    | none => matrix.erase addr.toLinearIndex

def invalidateHashes (m : HashesMatrix F) (accountIndex : ℕ) : HashesMatrix F :=
  let addr := Address.fromIndex accountIndex m.ledgerDepth
  { m with matrix := invalidateLoop addr.length addr m.matrix }

/-- A new hash is read from `HASH_EMPTIES` and stored; both accesses are checked. -/
def emptyHashAtHeight (V : TreeVersion A I F) (m : HashesMatrix F) (height : ℕ) :
    Except Panic (F × HashesMatrix F) :=
  match m.emptyHashes[height]? with
  | some (some hash) => .ok (hash, m)
  | _ => do
    ensure .indexOutOfBounds (height < rangeHeight)
    let hash := V.emptyHashAtHeight height
    ensure .indexOutOfBounds (height < m.emptyHashes.length)
    .ok (hash, { m with emptyHashes := m.emptyHashes.set height (some hash) })

def take (m : HashesMatrix F) : HashesMatrix F × HashesMatrix F :=
  (m, { m with matrix := ∅, emptyHashes := [] })

/-! ## Sound matrices -/

/-- Every hash in the matrix is the hash of its node over `view`. -/
structure Sound (V : TreeVersion A I F) (d : ℕ) (view : ℕ → Option A)
    (m : HashesMatrix F) : Prop where
  depth : m.ledgerDepth = d
  right : ∀ {n i : ℕ} {x : F}, n ≤ d → i < 2 ^ n → m.matrix.lookup (2 ^ n + i - 1) = some x →
    x = V.nodeHash view (d - n) i
  empties : ∀ {h : ℕ} {x : F}, m.emptyHashes[h]? = some (some x) → x = V.emptyHashAtHeight h

variable {V : TreeVersion A I F} {d : ℕ} {view view' : ℕ → Option A}
  {m hashes : HashesMatrix F} {a : Address}

theorem sound_new : (new d : HashesMatrix F).Sound V d view where
  depth := rfl
  right _ _ h := by cases h
  empties h := by
    rw [new, List.getElem?_replicate] at h
    split at h <;> cases h

theorem Sound.get (s : m.Sound V d view) (hd : d ≤ nbits) (ha : a.length ≤ d) {x : F}
    (h : m.get a = some x) : x = V.nodeHash view (d - a.length) a.toIndex :=
  s.right ha (toIndex_lt (ha.trans hd)) h

theorem Sound.set (s : m.Sound V d view) (hd : d ≤ nbits) (ha : a.length ≤ d) (fresh : m.get a = none) :
    ∃ m', m.set a (V.nodeHash view (d - a.length) a.toIndex) = .ok m' ∧ m'.Sound V d view ∧
      m'.emptyHashes = m.emptyHashes := by
  refine ⟨{ m with
    matrix := m.matrix.insert a.toLinearIndex (V.nodeHash view (d - a.length) a.toIndex) }, ?_,
    ⟨s.depth, ?_, s.empties⟩, rfl⟩
  · rw [HashesMatrix.set, show m.matrix.lookup a.toLinearIndex = none from fresh]
  · intro n i x hn hi hx
    by_cases same : 2 ^ n + i - 1 = a.toLinearIndex
    · obtain ⟨rfl, rfl⟩ := linear_injective hi (toIndex_lt (ha.trans hd)) same
      rw [same] at hx
      simp only [lookup_insert, Option.some.injEq] at hx
      exact hx.symm
    · rw [lookup_insert_ne same] at hx
      exact s.right hn hi hx

theorem Sound.emptyHashAtHeight (s : m.Sound V d view) (room : m.emptyHashes.length = d)
    (hd : d ≤ rangeHeight) {h : ℕ} (hh : h < d) :
    ∃ m', m.emptyHashAtHeight V h = .ok (V.emptyHashAtHeight h, m') ∧ m'.Sound V d view ∧
      m'.matrix = m.matrix ∧ m'.emptyHashes.length = d := by
  rw [HashesMatrix.emptyHashAtHeight]
  split
  · next hash known => exact ⟨m, by rw [s.empties known], s, rfl, room⟩
  · refine ⟨{ m with emptyHashes := m.emptyHashes.set h (some (V.emptyHashAtHeight h)) }, ?_,
      ⟨s.depth, s.right, ?_⟩, rfl, ?_⟩
    · rw [ensure_of (by omega), ensure_of (by omega)]
      rfl
    · intro h' x hx
      rw [List.getElem?_set] at hx
      split at hx
      · next same =>
        split at hx
        · subst same
          exact (Option.some.inj (Option.some.inj hx)).symm
        · cases hx
      · exact s.empties hx
    · rw [length_set, room]

theorem Sound.congr (s : m.Sound V d view) (same : ∀ j < 2 ^ d, view j = view' j) : m.Sound V d view' where
  depth := s.depth
  right {n i _} hn hi hx := by
    rw [s.right hn hi hx]
    refine TreeVersion.nodeHash_congr fun j hj => same j ?_
    have : j < (i + 1) * 2 ^ (d - n) := lt_mul_of_div_lt (by omega) (by positivity)
    calc j < (i + 1) * 2 ^ (d - n) := this
      _ ≤ 2 ^ n * 2 ^ (d - n) := mul_le_mul_right _ hi
      _ = 2 ^ d := by rw [← pow_add, Nat.add_sub_cancel' hn]
  empties := s.empties

/-! ## Invalidation -/

theorem lookup_invalidateLoop : ∀ {n : ℕ} {a : Address} {M : HashMap ℕ F} {k : ℕ} {x : F},
    a.length = n → n ≤ nbits → (invalidateLoop n a M).lookup k = some x →
    M.lookup k = some x ∧ ∀ j ≤ n, k ≠ 2 ^ j + a.toIndex / 2 ^ (n - j) - 1
  | 0, a, M, k, x, ha, hb, h => by
    rw [invalidateLoop] at h
    have hk : k ≠ a.toLinearIndex := by
      rintro rfl
      rw [lookup_erase] at h
      cases h
    rw [lookup_erase_ne hk] at h
    refine ⟨h, fun j hj => ?_⟩
    obtain rfl : j = 0 := by omega
    simpa [toLinearIndex, ha] using hk
  | n + 1, a, M, k, x, ha, hb, h => by
    have parent : a.parent = some { a with length := n } := by
      rw [parent, ha]
      rfl
    rw [invalidateLoop, parent] at h
    obtain ⟨found, off⟩ := lookup_invalidateLoop (a := { a with length := n }) rfl
      (le_of_succ_le hb) h
    have hk : k ≠ a.toLinearIndex := by
      rintro rfl
      rw [lookup_erase] at found
      cases found
    rw [lookup_erase_ne hk] at found
    refine ⟨found, fun j hj => ?_⟩
    rcases lt_or_ge n j with hlt | hle
    · obtain rfl : j = n + 1 := by omega
      simpa [toLinearIndex, ha] using hk
    · have := off j hle
      rw [toIndex_shorten (a := a) (by omega) (by omega), Nat.div_div_eq_div_mul, ← pow_add] at this
      rwa [show a.length - n + (n - j) = n + 1 - j by omega] at this

theorem Sound.invalidateHashes (s : m.Sound V d view) (hd : d ≤ nbits) {i : ℕ} (hi : i < 2 ^ d)
    (same : ∀ j, j ≠ i → view j = view' j) : (m.invalidateHashes i).Sound V d view' where
  depth := s.depth
  right {n k x} hn hk hx := by
    rw [HashesMatrix.invalidateHashes, s.depth] at hx
    obtain ⟨found, off⟩ := lookup_invalidateLoop rfl hd hx
    rw [s.right hn hk found]
    refine TreeVersion.nodeHash_congr fun j hj => same j ?_
    -- a leaf below a node off the path is not the invalidated one
    rintro rfl
    refine off n hn ?_
    show _ = 2 ^ n + (Address.fromIndex j d).toIndex / 2 ^ (d - n) - 1
    rw [toIndex_fromIndex hi hd, hj]
  empties := s.empties

theorem lookup_foldl_insert : ∀ {l : List (Sigma fun _ : ℕ => F)} {M : HashMap ℕ F} {k : ℕ}
    {x : F}, (l.foldl (fun matrix e => matrix.insert e.1 e.2) M).lookup k = some x →
    M.lookup k = some x ∨ ⟨k, x⟩ ∈ l
  | [], M, k, x, h => Or.inl h
  | e :: l, M, k, x, h => by
    rcases lookup_foldl_insert (l := l) h with h | h
    · by_cases hk : k = e.1
      · subst hk
        rw [lookup_insert] at h
        cases h
        exact Or.inr mem_cons_self
      · rw [lookup_insert_ne hk] at h
        exact Or.inl h
    · exact Or.inr (mem_cons_of_mem _ h)

theorem Sound.transfertHashes (s : m.Sound V d view) (t : hashes.Sound V d view) :
    (m.transfertHashes hashes).Sound V d view where
  depth := s.depth
  right {n i x} hn hi hx := by
    rcases lookup_foldl_insert hx with h | h
    · exact s.right hn hi h
    · exact t.right hn hi (mem_lookup_iff.2 h)
  empties := s.empties

end HashesMatrix

end MinaRust.Ledger
