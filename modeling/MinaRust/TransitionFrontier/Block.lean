/-
  Blocks with their state hashes (`block_with_hash.rs`, `hashing.rs`).

  The state hash of a block is a function of the hashes of its predecessor and of its body.
  It can fail, and where it succeeds it is injective: `Hashing` carries the function with
  this law.
-/
import Mathlib

namespace MinaRust.TransitionFrontier

variable {H B : Type}

/-- `StateHash::try_from_hashes`, as an injective function. -/
structure Hashing (H B : Type) where
  tryFromHashes : H → B → Option H
  injective : ∀ {p p' : H} {b b' : B} {h : H},
    tryFromHashes p b = some h → tryFromHashes p' b' = some h → p = p' ∧ b = b'

namespace Hashing

variable (hashing : Hashing H B)

def IsPred (p h : H) : Prop := ∃ b, hashing.tryFromHashes p b = some h

def Linked (p : H) : List H → H → Prop
  | [], q => q = p
  | h :: hs, q => hashing.IsPred p h ∧ Linked h hs q

variable {hashing}

theorem IsPred.unique {p p' h : H} (hp : hashing.IsPred p h) (hp' : hashing.IsPred p' h) : p = p' := by
  obtain ⟨b, hb⟩ := hp
  obtain ⟨b', hb'⟩ := hp'
  exact (hashing.injective hb hb').1

end Hashing

/-- What is read of a block: the previous state hash, the hash of its body (which may
    fail), the blockchain length and the constant `k`. -/
structure Block (H B : Type) where
  previousStateHash : H
  bodyHash : Option B
  height : ℕ
  k : ℕ
  deriving DecidableEq, Repr

def Block.tryHash (hashing : Hashing H B) (block : Block H B) : Option H := do
  hashing.tryFromHashes block.previousStateHash (← block.bodyHash)

structure BlockWithHash (hashing : Hashing H B) where
  block : Block H B
  hash : H
  hashed : block.tryHash hashing = some hash

namespace BlockWithHash

variable {hashing : Hashing H B}

variable (b : BlockWithHash hashing)

def predHash : H := b.block.previousStateHash

def tryNew (hashing : Hashing H B) (block : Block H B) : Option (BlockWithHash hashing) :=
  match h : block.tryHash hashing with
  | some hash => some ⟨block, hash, h⟩
  | none => none

theorem tryNew_eq_some {block : Block H B} {b : BlockWithHash hashing} :
    tryNew hashing block = some b ↔ b.block = block := by
  obtain ⟨block', hash, hashed⟩ := b
  rw [tryNew]
  constructor
  · intro h
    split at h
    · cases h
      rfl
    · cases h
  · rintro rfl
    split
    · next found =>
      cases hashed.symm.trans found
      rfl
    · next failed => cases hashed.symm.trans failed

theorem tryHash_eq_some {h : H} : b.block.tryHash hashing = some h ↔ h = b.hash := by
  rw [b.hashed, Option.some.injEq, eq_comm]

theorem isPred : hashing.IsPred b.predHash b.hash := by
  obtain ⟨body, -, h⟩ := Option.bind_eq_some_iff.1 b.hashed
  exact ⟨body, h⟩

theorem predHash_congr {b b' : BlockWithHash hashing} (h : b.hash = b'.hash) : b.predHash = b'.predHash :=
  b.isPred.unique (h ▸ b'.isPred)

def Follows (a b : BlockWithHash hashing) : Prop := b.predHash = a.hash

theorem Follows.isPred {a b : BlockWithHash hashing} (h : Follows a b) : hashing.IsPred a.hash b.hash := by
  rw [← h]
  exact b.isPred

end BlockWithHash

/-! ## Hashes for examples -/

/-- State hashes as the list of all bodies down to the first block. -/
def listHashing : Hashing (List ℕ) ℕ where
  tryFromHashes p b := some (b :: p)
  injective := by
    intro p p' b b' h hp hp'
    cases hp
    cases hp'
    exact ⟨rfl, rfl⟩

def listBlock (body : ℕ) (before : List ℕ) : BlockWithHash listHashing :=
  ⟨⟨before, some body, before.length + 1, 290⟩, body :: before, rfl⟩

end MinaRust.TransitionFrontier
