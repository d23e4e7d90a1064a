/-
  Fetching a hashed tree from the top.

  A `HashedTree` gives every node the leaves below it and a hash of their values.  A
  frontier, a partial map from nodes to the hashes that they should get, is sound when its
  nodes lie apart below the root, and the root gets its hash from any values that differ
  only below the frontier and give its nodes their hashes.
-/
import Mathlib

namespace MinaRust

open Function

/-- Nodes with the leaves below them and a hash of the values of these leaves. -/
structure HashedTree (Node ι α H : Type) where
  leaves : Node → Set ι
  hash : (ι → α) → Node → H
  hash_congr : ∀ {n : Node} {v w : ι → α}, (∀ j ∈ leaves n, v j = w j) → hash v n = hash w n

namespace HashedTree

variable {Node ι α H : Type} (t : HashedTree Node ι α H)

def Open (F : Node → Option H) (j : ι) : Prop := ∃ n, F n ≠ none ∧ j ∈ t.leaves n

/-- **Sound frontiers.** -/
structure Frontier (top : Node) (contents : H) (values : ι → α) (F : Node → Option H) : Prop where
  apart : ∀ {n m : Node}, F n ≠ none → F m ≠ none → n ≠ m → Disjoint (t.leaves n) (t.leaves m)
  within : ∀ {n : Node}, F n ≠ none → t.leaves n ⊆ t.leaves top
  explains : ∀ v : ι → α, (∀ j, ¬ t.Open F j → v j = values j) → (∀ n e, F n = some e → t.hash v n = e) →
    t.hash v top = contents

/-- The frontier after a node is split: a child is listed unless it has its hash. -/
def split [DecidableEq Node] [DecidableEq H] (values : ι → α) (F : Node → Option H) (n l r : Node) (hl hr : H)
    (m : Node) : Option H :=
  if m = l then if t.hash values l = hl then none else some hl
  else if m = r then if t.hash values r = hr then none else some hr
  else if m = n then none
  else F m

/-- The leaves of a node are those of its two children, which lie apart. -/
structure Children (n l r : Node) : Prop where
  union : t.leaves n = t.leaves l ∪ t.leaves r
  apart : Disjoint (t.leaves l) (t.leaves r)
  left : (t.leaves l).Nonempty
  right : (t.leaves r).Nonempty

variable {t} {top n l r m : Node} {contents e hl hr : H} {values values' : ι → α} {F : Node → Option H}

theorem Children.leaves_left (c : t.Children n l r) : t.leaves l ⊆ t.leaves n :=
  c.union ▸ Set.subset_union_left

theorem Children.leaves_right (c : t.Children n l r) : t.leaves r ⊆ t.leaves n :=
  c.union ▸ Set.subset_union_right

theorem Children.symm (c : t.Children n l r) : t.Children n r l :=
  ⟨c.union.trans (Set.union_comm ..), c.apart.symm, c.right, c.left⟩

theorem Children.left_ne (c : t.Children n l r) : l ≠ n := by
  rintro rfl
  obtain ⟨j, below⟩ := c.right
  exact Set.disjoint_left.1 c.apart (c.leaves_right below) below

theorem Children.ne (c : t.Children n l r) : l ≠ r := by
  rintro rfl
  obtain ⟨j, below⟩ := c.left
  exact Set.disjoint_left.1 c.apart below below

namespace Frontier

section
variable (h : t.Frontier top contents values F)
include h

theorem left_free (listed : F n ≠ none) (c : t.Children n l r) :
    F l = none := by
  by_contra found
  obtain ⟨j, below⟩ := c.left
  exact Set.disjoint_left.1 (h.apart found listed c.left_ne) below (c.leaves_left below)

theorem right_free (listed : F n ≠ none) (c : t.Children n l r) :
    F r = none :=
  h.left_free listed c.symm

theorem done (empty : ∀ n, F n = none) : t.hash values top = contents :=
  h.explains values (fun _ _ => rfl) fun n e found => by
    rw [empty n] at found
    cases found

theorem write (found : F n ≠ none)
    (same : ∀ j, j ∉ t.leaves n → values' j = values j) : t.Frontier top contents values' F := by
  refine ⟨h.apart, h.within, fun v agrees fits => h.explains v (fun j closed => ?_) fits⟩
  rw [agrees j closed]
  exact same j fun below => closed ⟨n, found, below⟩

end

variable [DecidableEq Node]

theorem root (top : Node) (contents : H) (values : ι → α) :
    t.Frontier top contents values (Function.update (fun _ => none) top (some contents)) := by
  have only : ∀ {n}, Function.update (fun _ => none) top (some contents) n ≠ none → n = top := by
    intro n found
    by_contra ne
    exact found (update_of_ne ne ..)
  refine ⟨fun hn hm ne => absurd ((only hn).trans (only hm).symm) ne, fun found => ?_, fun v _ fits => ?_⟩
  · rw [only found]
  · exact fits top contents (update_self ..)

theorem fill (h : t.Frontier top contents values F) (found : F n = some e)
    (same : ∀ j, j ∉ t.leaves n → values' j = values j) (hash : t.hash values' n = e) :
    t.Frontier top contents values' (Function.update F n none) := by
  have listed : F n ≠ none := by simp [found]
  have rest : ∀ {m}, Function.update F n none m ≠ none → m ≠ n ∧ F m ≠ none := by
    intro m left
    by_cases eq : m = n
    · rw [eq, update_self] at left
      exact absurd rfl left
    · rw [update_of_ne eq] at left
      exact ⟨eq, left⟩
  refine ⟨fun hn hm => h.apart (rest hn).2 (rest hm).2, fun left => h.within (rest left).2, ?_⟩
  intro v agrees fits
  refine h.explains v (fun j closed => ?_) fun m e' expected => ?_
  · rw [agrees j fun ⟨m, left, below⟩ => closed ⟨m, (rest left).2, below⟩]
    exact same j fun below => closed ⟨n, listed, below⟩
  · by_cases eq : m = n
    · subst eq
      cases found.symm.trans expected
      -- nothing else of the frontier lies below the node, so the values there are the new ones
      rw [← hash]
      refine t.hash_congr fun j below => agrees j ?_
      rintro ⟨k, left, below'⟩
      exact Set.disjoint_left.1 (h.apart listed (rest left).2 (rest left).1.symm) below below'
    · exact fits m e' ((update_of_ne eq ..).trans expected)

variable [DecidableEq H]

theorem split_cases (h : t.Frontier top contents values F) (listed : F n ≠ none)
    (left : t.split values F n l r hl hr m ≠ none) :
    m = l ∨ m = r ∨ (F m ≠ none ∧ Disjoint (t.leaves n) (t.leaves m)) := by
  unfold HashedTree.split at left
  split at left
  · exact .inl ‹_›
  · split at left
    · exact .inr (.inl ‹_›)
    · split at left
      · exact absurd rfl left
      · next ne => exact .inr (.inr ⟨left, h.apart listed left (Ne.symm ne)⟩)

/-- A child that is not listed has its hash, from any values that differ from the present
    ones only below the frontier. -/
theorem split_hash (h : t.Frontier top contents values F) (listed : F n ≠ none) (c : t.Children n l r)
    {v : ι → α} (agrees : ∀ j, ¬ t.Open (t.split values F n l r hl hr) j → v j = values j)
    (fits : ∀ m e, t.split values F n l r hl hr m = some e → t.hash v m = e) :
    t.hash v l = hl ∧ t.hash v r = hr := by
  have ne : r ≠ l := c.ne.symm
  constructor
  · by_cases has : t.hash values l = hl
    · have gone : t.split values F n l r hl hr l = none := by simp [HashedTree.split, has]
      rw [← has]
      refine t.hash_congr fun j below => agrees j ?_
      rintro ⟨k, left, below'⟩
      rcases h.split_cases listed left with rfl | rfl | ⟨-, apart⟩
      · exact left gone
      · exact Set.disjoint_left.1 c.apart below below'
      · exact Set.disjoint_left.1 apart (c.leaves_left below) below'
    · exact fits l hl (by simp [HashedTree.split, has])
  · by_cases has : t.hash values r = hr
    · have gone : t.split values F n l r hl hr r = none := by simp [HashedTree.split, has, ne]
      rw [← has]
      refine t.hash_congr fun j below => agrees j ?_
      rintro ⟨k, left, below'⟩
      rcases h.split_cases listed left with rfl | rfl | ⟨-, apart⟩
      · exact Set.disjoint_left.1 c.apart below' below
      · exact left gone
      · exact Set.disjoint_left.1 apart (c.leaves_right below) below'
    · exact fits r hr (by simp [HashedTree.split, has, ne])

theorem split (h : t.Frontier top contents values F) (found : F n = some e) (c : t.Children n l r)
    (node : ∀ v, t.hash v l = hl → t.hash v r = hr → t.hash v n = e) :
    t.Frontier top contents values (t.split values F n l r hl hr) := by
  have listed : F n ≠ none := by simp [found]
  refine ⟨fun {m k} hm hk ne => ?_, fun {m} left => ?_, fun v agrees fits => ?_⟩
  · rcases h.split_cases listed hm with rfl | rfl | ⟨before, apart⟩ <;>
      rcases h.split_cases listed hk with rfl | rfl | ⟨before', apart'⟩
    · exact absurd rfl ne
    · exact c.apart
    · exact apart'.mono_left c.leaves_left
    · exact c.apart.symm
    · exact absurd rfl ne
    · exact apart'.mono_left c.leaves_right
    · exact (apart.mono_left c.leaves_left).symm
    · exact (apart.mono_left c.leaves_right).symm
    · exact h.apart before before' ne
  · rcases h.split_cases listed left with rfl | rfl | ⟨before, -⟩
    · exact c.leaves_left.trans (h.within listed)
    · exact c.leaves_right.trans (h.within listed)
    · exact h.within before
  · obtain ⟨hashL, hashR⟩ := h.split_hash listed c agrees fits
    refine h.explains v (fun j closed => agrees j ?_) fun m e' expected => ?_
    · rintro ⟨m, left, below⟩
      rcases h.split_cases listed left with rfl | rfl | ⟨before, -⟩
      · exact closed ⟨n, listed, c.leaves_left below⟩
      · exact closed ⟨n, listed, c.leaves_right below⟩
      · exact closed ⟨m, before, below⟩
    · by_cases eq : m = n
      · subst eq
        cases found.symm.trans expected
        exact node v hashL hashR
      · have noLeft : m ≠ l := by
          rintro rfl
          simp [h.left_free listed c] at expected
        have noRight : m ≠ r := by
          rintro rfl
          simp [h.right_free listed c] at expected
        exact fits m e' (by simp [HashedTree.split, noLeft, noRight, eq, expected])

end Frontier

end HashedTree

end MinaRust
