/-
  Hashing a node from its children.

  The database and the masks compute the hash of a node in the same way: take the hashes of
  the children from the cache, or compute them, or use the hash of an empty tree for a child
  after the last account; then store the result.  Here is that step, for any state with a
  cache and any way to go deeper.
-/
import MinaRust.Ledger.HashesMatrix

namespace MinaRust.Ledger

open Address Merkle

structure HashCache (σ F : Type) where
  getCachedHash : σ → Address → Option F
  setCachedHash : σ → Address → F → Except Panic σ
  emptyHashAtHeight : σ → ℕ → Except Panic (F × σ)

/-- A step of a Merkle path, `MerklePath` of `base.rs`. -/
abbrev MerklePath (F : Type) : Type := Merkle.Step F

variable {A I F σ : Type}

def getChildHash (C : HashCache σ F) (lastAccount : Address) (height : ℕ)
    (deeper : Address → σ → Except Panic (F × σ)) (addr : Address) (s : σ) : Except Panic (F × σ) :=
  match C.getCachedHash s addr with
  | some hash => .ok (hash, s)
  | none =>
    if addr.isBefore lastAccount then deeper addr s else C.emptyHashAtHeight s height

def storeHash (C : HashCache σ F) (V : TreeVersion A I F) (height : ℕ)
    (addr : Address) (left right : F) (s : σ) : Except Panic (F × σ) :=
  match C.getCachedHash s addr with
  | some hash => .ok (hash, s)
  | none => do
    let hash := V.hashNode height left right
    let s ← C.setCachedHash s addr hash
    .ok (hash, s)

/-- The hash of `addr`, whose children have the given height. -/
def hashFromChildren (C : HashCache σ F) (V : TreeVersion A I F) (lastAccount : Address) (height : ℕ)
    (deeper : Address → σ → Except Panic (F × σ)) (addr : Address) (s : σ) : Except Panic (F × σ) := do
  let (left, s) ← getChildHash C lastAccount height deeper addr.childLeft s
  let (right, s) ← getChildHash C lastAccount height deeper addr.childRight s
  storeHash C V height addr left right s

/-! ## Paths -/

/-- The iterator over the path that is still to go, and the steps collected. -/
structure Walk (F : Type) where
  path : List Direction
  merklePath : List (MerklePath F)
  deriving DecidableEq, Repr

def HashCache.withWalk (C : HashCache σ F) : HashCache (Walk F × σ) F where
  getCachedHash s := C.getCachedHash s.2
  setCachedHash s addr hash := do
    let s' ← C.setCachedHash s.2 addr hash
    .ok (s.1, s')
  emptyHashAtHeight s height := do
    let (hash, s') ← C.emptyHashAtHeight s.2 height
    .ok (hash, (s.1, s'))

/-- Follow the path below `addr` down to its end, when it goes on. -/
def followPath (descend : Address → Walk F × σ → Except Panic (F × (Walk F × σ)))
    (addr : Address) (s : Walk F × σ) : Except Panic (Option Direction × (Walk F × σ)) :=
  match s.1.path with
  | [] => .ok (none, s)
  | direction :: path => do
    let child := match direction with
      | .left => addr.childLeft
      | .right => addr.childRight
    let (_, s) ← descend child ({ s.1 with path := path }, s.2)
    .ok (some direction, s)

def pushStep (direction : Option Direction) (left right : F) (w : Walk F) : Walk F :=
  match direction with
  | none => w
  | some .left => { w with merklePath := w.merklePath ++ [.left right] }
  | some .right => { w with merklePath := w.merklePath ++ [.right left] }

/-- First the path is followed to its end, by `descend`, then the children are hashed. -/
def pathFromChildren (C : HashCache σ F) (V : TreeVersion A I F) (lastAccount : Address) (height : ℕ)
    (descend deeper : Address → Walk F × σ → Except Panic (F × (Walk F × σ))) (addr : Address) (s : Walk F × σ) :
    Except Panic (F × (Walk F × σ)) := do
  let (direction, s) ← followPath descend addr s
  let (left, s) ← getChildHash C.withWalk lastAccount height deeper addr.childLeft s
  let (right, s) ← getChildHash C.withWalk lastAccount height deeper addr.childRight s
  storeHash C.withWalk V height addr left right (pushStep direction left right s.1, s.2)

/-! ## The result -/

/-- Holds right hashes only, takes new ones, and knows the empty ones when there is a leaf after
    the last account. -/
structure HashCache.Lawful (C : HashCache σ F) (V : TreeVersion A I F) (d : ℕ)
    (view : ℕ → Option A) (last : Address) (Ok : σ → Prop) : Prop where
  get : ∀ {s a x}, Ok s → a.length ≤ d → C.getCachedHash s a = some x →
    x = V.nodeHash view (d - a.length) a.toIndex
  set : ∀ {s a}, Ok s → a.length ≤ d → C.getCachedHash s a = none →
    ∃ s', C.setCachedHash s a (V.nodeHash view (d - a.length) a.toIndex) = .ok s' ∧ Ok s'
  empty : ∀ {s h}, Ok s → h < d → last.toIndex + 1 < 2 ^ d →
    ∃ s', C.emptyHashAtHeight s h = .ok (V.emptyHashAtHeight h, s') ∧ Ok s'

def HashesAt (V : TreeVersion A I F) (d : ℕ) (view : ℕ → Option A)
    (Ok : σ → Prop) (n : ℕ) (f : Address → σ → Except Panic (F × σ)) : Prop :=
  ∀ a s, a.Clean → a.length + n = d → Ok s → ∃ s', f a s = .ok (V.nodeHash view n a.toIndex, s') ∧ Ok s'

section
variable {C : HashCache σ F} {V : TreeVersion A I F} {d : ℕ}
  {view : ℕ → Option A} {last : Address} {Ok : σ → Prop}

/-- The accounts of the view are not after `last`, a leaf. -/
structure Bounds (d : ℕ) (view : ℕ → Option A) (last : Address) : Prop where
  depth : d ≤ nbits
  length : last.length = d
  le : ∀ {j : ℕ}, view j ≠ none → j ≤ last.toIndex

variable {n : ℕ}

variable {a : Address}

theorem Bounds.empty (b : Bounds d view last) (ha : a.length + n = d) (after : a.isBefore last = false) :
    V.nodeHash view n a.toIndex = V.emptyHashAtHeight n ∧ last.toIndex + 1 < 2 ^ d := by
  have lt : last.toIndex / 2 ^ n < a.toIndex := by
    rw [← Bool.not_eq_true, isBefore_iff (by rw [b.length]; omega)
      (by rw [b.length]; exact b.depth), b.length] at after
    rw [show d - a.length = n by omega] at after
    omega
  constructor
  · refine TreeVersion.nodeHash_empty fun j hj => ?_
    by_contra some
    have := Nat.div_le_div_right (c := 2 ^ n) (b.le some)
    omega
  · have le : last.toIndex + 1 ≤ a.toIndex * 2 ^ n := by
      have := (Nat.div_lt_iff_lt_mul (Nat.two_pow_pos n)).1 lt
      omega
    have hb : a.length ≤ nbits := by
      have := b.depth
      omega
    calc last.toIndex + 1 ≤ a.toIndex * 2 ^ n := le
      _ < 2 ^ a.length * 2 ^ n :=
        Nat.mul_lt_mul_of_pos_right (toIndex_lt hb) (by positivity)
      _ = 2 ^ d := by rw [← pow_add, ha]

variable {deeper : Address → σ → Except Panic (F × σ)}

theorem getChildHash_spec (law : C.Lawful V d view last Ok) (b : Bounds d view last)
    (deep : HashesAt V d view Ok n deeper) (hn : n < d) :
    HashesAt V d view Ok n (getChildHash C last n deeper) := by
  intro a s clean ha ok
  rw [getChildHash]
  cases cached : C.getCachedHash s a with
  | some x =>
    refine ⟨s, ?_, ok⟩
    rw [law.get ok (by omega) cached, show d - a.length = n by omega]
  | none =>
    by_cases before : a.isBefore last = true
    · rw [if_pos before]
      exact deep a s clean ha ok
    · rw [if_neg before]
      obtain ⟨node, room⟩ := b.empty (V := V) ha (Bool.eq_false_iff.2 before)
      rw [node]
      exact law.empty ok hn room

theorem storeHash_spec (law : C.Lawful V d view last Ok) {s : σ} (ha : a.length + (n + 1) = d) (ok : Ok s) :
    ∃ s', storeHash C V n a (V.nodeHash view n (2 * a.toIndex))
      (V.nodeHash view n (2 * a.toIndex + 1)) s = .ok (V.nodeHash view (n + 1) a.toIndex, s') ∧
      Ok s' := by
  have height : d - a.length = n + 1 := by omega
  rw [storeHash]
  cases cached : C.getCachedHash s a with
  | some x =>
    refine ⟨s, ?_, ok⟩
    rw [law.get ok (by omega) cached, height]
  | none =>
    obtain ⟨s', set, ok'⟩ := law.set ok (by omega) cached
    rw [height] at set
    refine ⟨s', ?_, ok'⟩
    show (C.setCachedHash s a (V.nodeHash view (n + 1) a.toIndex) >>= _) = _
    rw [set]
    rfl

/-- **One node.**  The hash of a node comes from the hashes one level below. -/
theorem hashFromChildren_spec (law : C.Lawful V d view last Ok) (b : Bounds d view last)
    (deep : HashesAt V d view Ok n deeper) :
    HashesAt V d view Ok (n + 1) (hashFromChildren C V last n deeper) := by
  intro a s clean ha ok
  have hb : a.length < nbits := by
    have := b.depth
    omega
  obtain ⟨left, cleanL⟩ := toIndex_childLeft hb clean
  obtain ⟨right, cleanR⟩ := toIndex_childRight hb clean
  have child := getChildHash_spec law b deep (by omega)
  obtain ⟨s₁, h₁, ok₁⟩ := child _ _ cleanL (by show a.length + 1 + n = d; omega) ok
  obtain ⟨s₂, h₂, ok₂⟩ := child _ _ cleanR (by show a.length + 1 + n = d; omega) ok₁
  obtain ⟨s₃, h₃, ok₃⟩ := storeHash_spec law ha ok₂
  refine ⟨s₃, ?_, ok₃⟩
  rw [hashFromChildren, h₁, ok_bind]
  simp only [h₂, ok_bind]
  rw [left, right, h₃]

/-! ## The path -/

/-- `f` computes the hashes of the nodes at height `n`, and collects the
    siblings of the path that is still to go. -/
def PathsAt (V : TreeVersion A I F) (d : ℕ) (view : ℕ → Option A) (Ok : σ → Prop) (n : ℕ)
    (f : Address → Walk F × σ → Except Panic (F × (Walk F × σ))) : Prop :=
  ∀ a w s, a.Clean → a.length + n = d → w.path.length ≤ n → Ok s →
    ∃ s', f a (w, s) = .ok (V.nodeHash view n a.toIndex, (⟨[], w.merklePath ++
      siblings V.hashNode (fun j => V.leafHash (view j)) n a.toIndex
        (w.path.map Direction.bit)⟩, s')) ∧ Ok s'

/-- The states whose walk has come to its end with the steps `mp`. -/
def Walked (mp : List (MerklePath F)) (Ok : σ → Prop) (s : Walk F × σ) : Prop :=
  s.1 = ⟨[], mp⟩ ∧ Ok s.2

theorem HashCache.Lawful.withWalk (law : C.Lawful V d view last Ok)
    (mp : List (MerklePath F)) : C.withWalk.Lawful V d view last (Walked mp Ok) where
  get ok ha h := law.get ok.2 ha h
  set {s a} ok ha h := by
    obtain ⟨s', set, ok'⟩ := law.set ok.2 ha h
    refine ⟨(s.1, s'), ?_, ok.1, ok'⟩
    show (C.setCachedHash s.2 a _ >>= _) = _
    rw [set]
    rfl
  empty {s h} ok hh room := by
    obtain ⟨s', empty, ok'⟩ := law.empty ok.2 hh room
    refine ⟨(s.1, s'), ?_, ok.1, ok'⟩
    show (C.emptyHashAtHeight s.2 h >>= _) = _
    rw [empty]
    rfl

theorem PathsAt.hashesAt {f : Address → Walk F × σ → Except Panic (F × (Walk F × σ))}
    (h : PathsAt V d view Ok n f) (mp : List (MerklePath F)) : HashesAt V d view (Walked mp Ok) n f := by
  rintro a ⟨w, s⟩ clean ha ⟨rfl, ok⟩
  obtain ⟨s', eq, ok'⟩ := h a ⟨[], mp⟩ s clean ha (Nat.zero_le n) ok
  refine ⟨(⟨[], mp⟩, s'), ?_, rfl, ok'⟩
  rw [eq]
  cases n <;> simp [siblings]

variable {descend : Address → Walk F × σ → Except Panic (F × (Walk F × σ))}

theorem followPath_spec (b : Bounds d view last) (down : PathsAt V d view Ok n descend) {w : Walk F} {s : σ}
    (clean : a.Clean) (ha : a.length + (n + 1) = d) (hw : w.path.length ≤ n + 1) (ok : Ok s) :
    ∃ mp s', followPath descend a (w, s) = .ok (w.path.head?, (⟨[], mp⟩, s')) ∧ Ok s' ∧
      pushStep w.path.head? (V.nodeHash view n (2 * a.toIndex))
        (V.nodeHash view n (2 * a.toIndex + 1)) ⟨[], mp⟩ = ⟨[], w.merklePath ++
          siblings V.hashNode (fun j => V.leafHash (view j)) (n + 1) a.toIndex
            (w.path.map Direction.bit)⟩ := by
  have hb : a.length < nbits := by
    have := b.depth
    omega
  have hc : a.length + 1 + n = d := by omega
  obtain ⟨path, mp⟩ := w
  match path with
  | [] =>
    refine ⟨mp, s, rfl, ok, ?_⟩
    simp [pushStep, siblings]
  | .left :: path =>
    obtain ⟨left, cleanL⟩ := toIndex_childLeft hb clean
    obtain ⟨s', eq, ok'⟩ := down a.childLeft ⟨path, mp⟩ s cleanL hc (by simpa using hw) ok
    rw [left] at eq
    refine ⟨mp ++ siblings V.hashNode (fun j => V.leafHash (view j)) n (2 * a.toIndex)
      (path.map Direction.bit), s', ?_, ok', ?_⟩
    · simp only [followPath, eq, ok_bind]
      rfl
    · simp [pushStep, siblings, Direction.bit, TreeVersion.nodeHash]
  | .right :: path =>
    obtain ⟨right, cleanR⟩ := toIndex_childRight hb clean
    obtain ⟨s', eq, ok'⟩ := down a.childRight ⟨path, mp⟩ s cleanR hc (by simpa using hw) ok
    rw [right] at eq
    refine ⟨mp ++ siblings V.hashNode (fun j => V.leafHash (view j)) n (2 * a.toIndex + 1)
      (path.map Direction.bit), s', ?_, ok', ?_⟩
    · simp only [followPath, eq, ok_bind]
      rfl
    · simp [pushStep, siblings, Direction.bit, TreeVersion.nodeHash]

theorem pathFromChildren_spec (law : C.Lawful V d view last Ok) (b : Bounds d view last)
    {deeper : Address → Walk F × σ → Except Panic (F × (Walk F × σ))} (down : PathsAt V d view Ok n descend)
    (deep : ∀ mp, HashesAt V d view (Walked mp Ok) n deeper) :
    PathsAt V d view Ok (n + 1) (pathFromChildren C V last n descend deeper) := by
  intro a w s clean ha hw ok
  have hb : a.length < nbits := by
    have := b.depth
    omega
  have hc : a.length + 1 + n = d := by omega
  obtain ⟨left, cleanL⟩ := toIndex_childLeft hb clean
  obtain ⟨right, cleanR⟩ := toIndex_childRight hb clean
  obtain ⟨mp, s₀, follow, ok₀, steps⟩ := followPath_spec b down clean ha hw ok
  -- the path is at its end when the children are hashed
  have child := getChildHash_spec (law.withWalk mp) b (deep mp) (by omega)
  obtain ⟨⟨w₁, s₁⟩, h₁, rfl, ok₁⟩ := child _ (⟨[], mp⟩, s₀) cleanL hc ⟨rfl, ok₀⟩
  obtain ⟨⟨w₂, s₂⟩, h₂, rfl, ok₂⟩ := child _ (⟨[], mp⟩, s₁) cleanR hc ⟨rfl, ok₁⟩
  obtain ⟨⟨w₃, s₃⟩, h₃, hw₃, ok₃⟩ := storeHash_spec (s := (⟨[], w.merklePath ++
    siblings V.hashNode (fun j => V.leafHash (view j)) (n + 1) a.toIndex
      (w.path.map Direction.bit)⟩, s₂)) (law.withWalk _) ha ⟨rfl, ok₂⟩
  refine ⟨s₃, ?_, ok₃⟩
  simp only [pathFromChildren, follow, ok_bind, h₁, h₂]
  rw [left, right, steps, h₃]
  exact congrArg (fun w => Except.ok (V.nodeHash view (n + 1) a.toIndex, (w, s₃))) hw₃

end

end MinaRust.Ledger
