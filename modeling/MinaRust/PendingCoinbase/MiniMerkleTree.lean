/-
  The Merkle tree of the pending coinbases (`MiniMerkleTree` of `pending_coinbase.rs`).

  The values stand in a vector, an index maps keys to addresses, and a matrix caches the
  hashes; a write forgets the hashes above the value unless it was there before.
-/
import MinaRust.Ledger.Emulate

namespace MinaRust.PendingCoinbase

open Ledger List Address Nat

structure TreeHasher (V F : Type) where
  hashValue : V → F
  emptyValue : V
  mergeHash : ℕ → F → F → F

structure MiniMerkleTree (K V F : Type) where
  values : List V
  indexes : HashMap K Address
  hashesMatrix : HashesMatrix F
  depth : ℕ

variable {K V F : Type}

/-- The values as the accounts of a ledger; they have no ids. -/
def TreeHasher.version (Hs : TreeHasher V F) : TreeVersion V Unit F where
  empty := Hs.emptyValue
  id _ := ()
  hashLeaf := Hs.hashValue
  hashNode := Hs.mergeHash

namespace MiniMerkleTree

def create (depth : ℕ) : MiniMerkleTree K V F := ⟨[], ∅, .new depth, depth⟩

/-- The assertion on the length of the address stops as `locationMismatch`. -/
def get (t : MiniMerkleTree K V F) (addr : Address) : Except Panic (Option V) := do
  ensure .locationMismatch (addr.length = t.depth)
  .ok t.values[addr.toIndex]?

def getExn (t : MiniMerkleTree K V F) (addr : Address) : Except Panic V := do
  let value ← t.get addr
  okOr .unwrapNone value

def setExn [DecidableEq V] (addr : Address) (value : V) (t : MiniMerkleTree K V F) :
    Except Panic (MiniMerkleTree K V F) := do
  ensure .locationMismatch (addr.length = t.depth)
  let index := addr.toIndex
  if index < t.values.length then
    let invalidate := decide (t.values[index]? ≠ some value)
    .ok { t with
      values := t.values.set index value
      hashesMatrix := if invalidate then t.hashesMatrix.invalidateHashes index else t.hashesMatrix }
  else if index = t.values.length then
    .ok { t with
      values := t.values ++ [value]
      hashesMatrix := t.hashesMatrix.invalidateHashes index }
  else .error .indexOutOfBounds

def findIndexExn [DecidableEq K] (t : MiniMerkleTree K V F) (key : K) : Except Panic Address :=
  okOr .unwrapNone (t.indexes.lookup key)

/-! ## Hashes -/

variable (Hs : TreeHasher V F)

def getValueHash (addr : Address) (t : MiniMerkleTree K V F) : Except Panic (F × MiniMerkleTree K V F) :=
  match t.hashesMatrix.get addr with
  | some hash => .ok (hash, t)
  | none => do
    let value ← t.get addr
    let hash := Hs.hashValue (value.getD Hs.emptyValue)
    let matrix ← t.hashesMatrix.set addr hash
    .ok (hash, { t with hashesMatrix := matrix })

def getNodeHash (addr : Address) (left right : F) (t : MiniMerkleTree K V F) :
    Except Panic (F × MiniMerkleTree K V F) :=
  match t.hashesMatrix.get addr with
  | some hash => .ok (hash, t)
  | none => do
    let depthInTree := t.depth - addr.length
    let hash := Hs.mergeHash (depthInTree - 1) left right
    let matrix ← t.hashesMatrix.set addr hash
    .ok (hash, { t with hashesMatrix := matrix })

/-- The closure `get_child_hash`; with a path, the state also holds the walk. -/
def getChildHash {σ : Type} (hashes : σ → HashesMatrix F)
    (deeper : Address → σ → Except Panic (F × σ)) (addr : Address) (s : σ) : Except Panic (F × σ) :=
  match (hashes s).get addr with
  | some hash => .ok (hash, s)
  | none => deeper addr s

/-- The argument is the height of `addr`, `self.depth - addr.length()`. -/
def emulateTreeMerkleRoot : ℕ → Address → MiniMerkleTree K V F → Except Panic (F × MiniMerkleTree K V F)
  | 0 => getValueHash Hs
  | height + 1 => fun addr t => do
    let (left, t) ← getChildHash hashesMatrix (emulateTreeMerkleRoot height) addr.childLeft t
    let (right, t) ← getChildHash hashesMatrix (emulateTreeMerkleRoot height) addr.childRight t
    getNodeHash Hs addr left right t

def merkleRoot (t : MiniMerkleTree K V F) : Except Panic (F × MiniMerkleTree K V F) :=
  match t.hashesMatrix.get .root with
  | some hash => .ok (hash, t)
  | none => emulateTreeMerkleRoot Hs t.depth .root t

def keepWalk (f : MiniMerkleTree K V F → Except Panic (F × MiniMerkleTree K V F))
    (s : Walk F × MiniMerkleTree K V F) : Except Panic (F × (Walk F × MiniMerkleTree K V F)) := do
  let (hash, t) ← f s.2
  .ok (hash, (s.1, t))

def emulateTreeToGetPath : ℕ → Address → Walk F × MiniMerkleTree K V F →
    Except Panic (F × (Walk F × MiniMerkleTree K V F))
  | 0 => fun addr => keepWalk (getValueHash Hs addr)
  | height + 1 => fun addr s => do
    let (nextDirection, s) ← followPath (emulateTreeToGetPath height) addr s
    let (left, s) ← getChildHash (hashesMatrix ∘ Prod.snd) (emulateTreeToGetPath height) addr.childLeft s
    let (right, s) ← getChildHash (hashesMatrix ∘ Prod.snd) (emulateTreeToGetPath height) addr.childRight s
    keepWalk (getNodeHash Hs addr left right) (pushStep nextDirection left right s.1, s.2)

def pathExn (addr : Address) (t : MiniMerkleTree K V F) :
    Except Panic (List (MerklePath F) × MiniMerkleTree K V F) := do
  let (_, (walk, t)) ← emulateTreeToGetPath Hs t.depth .root (⟨addr.directions, []⟩, t)
  .ok (walk.merklePath, t)

/-! ## Sound trees -/

variable {Hs} {d : ℕ} {t t' t₀ : MiniMerkleTree K V F}

def view (t : MiniMerkleTree K V F) (j : ℕ) : Option V := t.values[j]?

/-- All leaves have a value, and the cached hashes are those of the full tree. -/
structure Sound (Hs : TreeHasher V F) (d : ℕ) (t : MiniMerkleTree K V F) : Prop where
  depth : t.depth = d
  full : t.values.length = 2 ^ d
  hashes : t.hashesMatrix.Sound Hs.version d t.view

/-- The sound trees that differ from `t₀` in hashes only. -/
structure Like (Hs : TreeHasher V F) (d : ℕ) (t₀ t : MiniMerkleTree K V F) : Prop where
  sound : t.Sound Hs d
  values : t.values = t₀.values
  indexes : t.indexes = t₀.indexes

theorem Sound.refl (s : t.Sound Hs d) : Like Hs d t t := ⟨s, rfl, rfl⟩

theorem Like.view (l : Like Hs d t₀ t) : t.view = t₀.view := by
  funext j
  rw [MiniMerkleTree.view, MiniMerkleTree.view, l.values]

theorem Like.withMatrix (l : Like Hs d t₀ t) {m : HashesMatrix F} (hm : m.Sound Hs.version d t.view) :
    Like Hs d t₀ { t with hashesMatrix := m } :=
  ⟨⟨l.sound.depth, l.sound.full, hm⟩, l.values, l.indexes⟩

variable {a : Address}

theorem Like.store (hd : d ≤ nbits) (l : Like Hs d t₀ t) (ha : a.length ≤ d)
    (fresh : t.hashesMatrix.get a = none) :
    ∃ m, t.hashesMatrix.set a (Hs.version.nodeHash t₀.view (d - a.length) a.toIndex) = .ok m ∧
      Like Hs d t₀ { t with hashesMatrix := m } := by
  obtain ⟨m, set, sound, -⟩ := l.sound.hashes.set hd ha fresh
  rw [l.view] at set
  exact ⟨m, set, l.withMatrix sound⟩

theorem Like.cached (hd : d ≤ nbits) (l : Like Hs d t₀ t) {n : ℕ} (ha : a.length + n = d) {x : F}
    (hx : t.hashesMatrix.get a = some x) : x = Hs.version.nodeHash t₀.view n a.toIndex := by
  rw [l.sound.hashes.get hd (by omega) hx, l.view, show d - a.length = n by omega]

theorem getValueHash_spec (hd : d ≤ nbits) :
    HashesAt Hs.version d t₀.view (Like Hs d t₀) 0 (getValueHash Hs) := by
  intro a t _ ha l
  rw [getValueHash]
  cases cached : t.hashesMatrix.get a with
  | some x => exact ⟨t, by rw [l.cached hd ha cached], l⟩
  | none =>
    obtain ⟨m, set, l'⟩ := l.store hd (by omega) cached
    have here : Hs.hashValue ((t.values[a.toIndex]?).getD Hs.emptyValue) =
        Hs.version.nodeHash t₀.view (d - a.length) a.toIndex := by
      rw [show d - a.length = 0 by omega, l.values, TreeVersion.nodeHash, Merkle.hashAt, view]
      cases t₀.values[a.toIndex]? <;> rfl
    refine ⟨_, ?_, l'⟩
    simp only [get, l.sound.depth, ensure_of (show a.length = d by omega), ok_bind, here, set]
    rw [show d - a.length = 0 by omega]

theorem getNodeHash_spec (hd : d ≤ nbits) {n : ℕ} (ha : a.length + (n + 1) = d) (l : Like Hs d t₀ t) :
    ∃ t', getNodeHash Hs a (Hs.version.nodeHash t₀.view n (2 * a.toIndex))
      (Hs.version.nodeHash t₀.view n (2 * a.toIndex + 1)) t =
        .ok (Hs.version.nodeHash t₀.view (n + 1) a.toIndex, t') ∧ Like Hs d t₀ t' := by
  rw [getNodeHash]
  cases cached : t.hashesMatrix.get a with
  | some x => exact ⟨t, by rw [l.cached hd ha cached], l⟩
  | none =>
    obtain ⟨m, set, l'⟩ := l.store hd (by omega) cached
    have height : d - a.length = n + 1 := by omega
    rw [height] at set
    refine ⟨_, ?_, l'⟩
    have node : Hs.mergeHash (t.depth - a.length - 1) (Hs.version.nodeHash t₀.view n (2 * a.toIndex))
        (Hs.version.nodeHash t₀.view n (2 * a.toIndex + 1)) =
          Hs.version.nodeHash t₀.view (n + 1) a.toIndex := by
      rw [l.sound.depth, height]
      rfl
    simp only [node, set, ok_bind]

theorem getChildHash_spec {σ : Type} {Ok : σ → Prop} {hashes : σ → HashesMatrix F}
    (right : ∀ {s a x n}, Ok s → a.length + n = d → (hashes s).get a = some x → x = Hs.version.nodeHash t₀.view n a.toIndex)
    {n : ℕ} {deeper : Address → σ → Except Panic (F × σ)} (deep : HashesAt Hs.version d t₀.view Ok n deeper) :
    HashesAt Hs.version d t₀.view Ok n (getChildHash hashes deeper) := by
  intro a s clean ha ok
  rw [getChildHash]
  cases cached : (hashes s).get a with
  | some x => exact ⟨s, by rw [right ok ha cached], ok⟩
  | none => exact deep a s clean ha ok

theorem emulateTreeMerkleRoot_spec (hd : d ≤ nbits) : ∀ n : ℕ,
    HashesAt Hs.version d t₀.view (Like Hs d t₀) n (emulateTreeMerkleRoot Hs n)
  | 0 => getValueHash_spec hd
  | n + 1 => by
    intro a t clean ha l
    obtain ⟨left, cleanL⟩ := toIndex_childLeft (by omega) clean
    obtain ⟨right, cleanR⟩ := toIndex_childRight (by omega) clean
    have child : HashesAt Hs.version d t₀.view (Like Hs d t₀) n
        (getChildHash hashesMatrix (emulateTreeMerkleRoot Hs n)) :=
      getChildHash_spec (fun l ha hx => Like.cached hd l ha hx) (emulateTreeMerkleRoot_spec hd n)
    obtain ⟨t₁, h₁, l₁⟩ := child a.childLeft t cleanL (by show a.length + 1 + n = d; omega) l
    obtain ⟨t₂, h₂, l₂⟩ := child a.childRight t₁ cleanR (by show a.length + 1 + n = d; omega) l₁
    obtain ⟨t₃, h₃, l₃⟩ := getNodeHash_spec hd ha l₂
    refine ⟨t₃, ?_, l₃⟩
    rw [left] at h₁
    rw [right] at h₂
    simp [emulateTreeMerkleRoot, h₁, h₂, ok_bind, h₃]

theorem Sound.merkleRoot (hd : d ≤ nbits) (s : t.Sound Hs d) :
    ∃ t', t.merkleRoot Hs = .ok (Hs.version.nodeHash t.view d 0, t') ∧ Like Hs d t t' := by
  rw [MiniMerkleTree.merkleRoot]
  cases cached : t.hashesMatrix.get .root with
  | some x => exact ⟨t, by rw [s.refl.cached hd (zero_add d) cached]; rfl, s.refl⟩
  | none =>
    obtain ⟨t', eq, l⟩ := emulateTreeMerkleRoot_spec hd d .root t clean_root
      (zero_add d) s.refl
    refine ⟨t', ?_, l⟩
    rw [s.depth]
    exact eq

/-! ## Paths -/

theorem keepWalk_spec {Ok : MiniMerkleTree K V F → Prop} {w : Walk F} {x : F}
    {f : MiniMerkleTree K V F → Except Panic (F × MiniMerkleTree K V F)}
    (h : ∃ t', f t = .ok (x, t') ∧ Ok t') : ∃ t', keepWalk f (w, t) = .ok (x, (w, t')) ∧ Ok t' := by
  obtain ⟨t', eq, ok⟩ := h
  exact ⟨t', by simp only [keepWalk, eq, ok_bind], ok⟩

theorem emulateTreeToGetPath_spec (hd : d ≤ nbits) {last : Address} (b : Bounds d t₀.view last) :
    ∀ n : ℕ, PathsAt Hs.version d t₀.view (Like Hs d t₀) n (emulateTreeToGetPath Hs n)
  | 0 => by
    rintro a ⟨path, mp⟩ t clean ha hw l
    obtain rfl : path = [] := length_eq_zero_iff.1 (le_zero.1 hw)
    obtain ⟨t', eq, l'⟩ := keepWalk_spec (getValueHash_spec hd a t clean ha l)
    refine ⟨t', ?_, l'⟩
    show keepWalk (getValueHash Hs a) (⟨[], mp⟩, t) = _
    rw [eq]
    simp [Merkle.siblings]
  | n + 1 => by
    intro a w t clean ha hw l
    have down := emulateTreeToGetPath_spec hd b n
    obtain ⟨left, cleanL⟩ := toIndex_childLeft (by omega) clean
    obtain ⟨right, cleanR⟩ := toIndex_childRight (by omega) clean
    obtain ⟨mp, t₀', follow, l₀, steps⟩ := followPath_spec b down clean ha hw l
    -- the path is at its end when the children are hashed
    have child : HashesAt Hs.version d t₀.view (Walked mp (Like Hs d t₀)) n
        (getChildHash (hashesMatrix ∘ Prod.snd) (emulateTreeToGetPath Hs n)) :=
      getChildHash_spec (fun ok ha hx => Like.cached hd ok.2 ha hx) (down.hashesAt mp)
    obtain ⟨⟨w₁, t₁⟩, h₁, rfl, l₁⟩ := child a.childLeft (⟨[], mp⟩, t₀') cleanL
      (by show a.length + 1 + n = d; omega) ⟨rfl, l₀⟩
    obtain ⟨⟨w₂, t₂⟩, h₂, rfl, l₂⟩ := child a.childRight (⟨[], mp⟩, t₁) cleanR
      (by show a.length + 1 + n = d; omega) ⟨rfl, l₁⟩
    rw [left] at h₁
    rw [right] at h₂
    obtain ⟨t₃, h₃, l₃⟩ := keepWalk_spec (getNodeHash_spec hd ha l₂)
    refine ⟨t₃, ?_, l₃⟩
    simp only [emulateTreeToGetPath, follow, h₁, h₂, ok_bind]
    rw [steps, h₃]

theorem Sound.bounds (hd : d ≤ nbits) (s : t.Sound Hs d) :
    Bounds d t.view (Address.fromIndex (2 ^ d - 1) d) where
  depth := hd
  length := rfl
  le {j} some := by
    have pos := Nat.two_pow_pos d
    rw [toIndex_fromIndex (by omega) hd]
    have lt : j < t.values.length := by
      by_contra ge
      exact some (List.getElem?_eq_none (by omega))
    rw [s.full] at lt
    omega

variable {addr : Address}

theorem Sound.pathExn (hd : d ≤ nbits) (s : t.Sound Hs d) (ha : addr.length = d) :
    ∃ t', t.pathExn Hs addr = .ok (Merkle.siblings Hs.mergeHash
      (fun j => Hs.version.leafHash (t.view j)) d 0 (addr.directions.map Direction.bit), t') ∧
      Like Hs d t t' := by
  have length : addr.directions.length ≤ d := by
    rw [directions, length_map, length_range, ha]
  obtain ⟨t', eq, l⟩ := emulateTreeToGetPath_spec hd (s.bounds hd) d .root ⟨addr.directions, []⟩ t
    clean_root (zero_add d) length s.refl
  refine ⟨t', ?_, l⟩
  simp only [MiniMerkleTree.pathExn, s.depth, eq, ok_bind, nil_append]
  rfl

/-! ## Reads and writes -/

theorem Sound.getExn (s : t.Sound Hs d) (ha : addr.length = d) {value : V}
    (here : t.view addr.toIndex = some value) : t.getExn addr = .ok value := by
  rw [view] at here
  simp only [MiniMerkleTree.getExn, get, s.depth, ensure_of ha, ok_bind, here]
  rfl

theorem Sound.setExn [DecidableEq V] (hd : d ≤ nbits) (s : t.Sound Hs d) (ha : addr.length = d) (value : V) :
    ∃ t', t.setExn addr value = .ok t' ∧ t'.Sound Hs d ∧ t'.indexes = t.indexes ∧
      ∀ j, t'.view j = if j = addr.toIndex then some value else t.view j := by
  have lt : addr.toIndex < t.values.length := by
    rw [s.full, ← ha]
    exact toIndex_lt (by omega)
  have views : ∀ j, (t.values.set addr.toIndex value)[j]? =
      if j = addr.toIndex then some value else t.values[j]? := by
    intro j
    rw [List.getElem?_set]
    split
    · next eq => rw [if_pos eq.symm]
    · next ne => rw [if_neg (Ne.symm ne)]
  refine ⟨{ t with
    values := t.values.set addr.toIndex value
    hashesMatrix := if decide (t.values[addr.toIndex]? ≠ some value) then
      t.hashesMatrix.invalidateHashes addr.toIndex else t.hashesMatrix },
    ?_, ⟨s.depth, length_set.trans s.full, ?_⟩, rfl, views⟩
  · rw [MiniMerkleTree.setExn, ensure_of (ha.trans s.depth.symm), ok_bind]
    exact if_pos lt
  · dsimp only
    split
    · exact s.hashes.invalidateHashes hd (by rw [← s.full]; exact lt) fun j ne =>
        ((views j).trans (if_neg ne)).symm
    · next same =>
      -- the value was there already
      have here : t.values[addr.toIndex]? = some value := by simpa using same
      refine s.hashes.congr fun j _ => ?_
      show t.values[j]? = (t.values.set addr.toIndex value)[j]?
      rw [views]
      split
      · next eq => rw [eq, here]
      · rfl

end MiniMerkleTree

end MinaRust.PendingCoinbase
