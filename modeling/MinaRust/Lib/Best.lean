/-
  Keeping the best: a slot that takes an item exactly when it ranks above the one it
  holds.

  `IsBest xs o` says that `o` holds a highest item of `xs`.  A slot that was offered
  `xs` one after the other holds a best item of `xs` (`isBest_foldl`), and the rank of
  the best depends only on which items were offered (`IsBest.rank_eq`).
-/
import Mathlib

namespace MinaRust

open List

variable {α β : Type} [LinearOrder β] (rank : α → β)

def keepBest (o : Option α) (x : α) : Option α :=
  match o with
  | none => some x
  | some y => if rank y < rank x then some x else some y

/-- `o` holds an item of `xs` of the highest rank; it is empty when there is none. -/
def IsBest (xs : List α) : Option α → Prop
  | none => xs = []
  | some y => y ∈ xs ∧ ∀ x ∈ xs, rank x ≤ rank y

variable {rank}

theorem isBest_toList (o : Option α) : IsBest rank o.toList o := by
  cases o with
  | none => rfl
  | some y => simp [IsBest]

theorem IsBest.keepBest {xs : List α} {o : Option α} (h : IsBest rank xs o) (x : α) :
    IsBest rank (xs ++ [x]) (keepBest rank o x) := by
  cases o with
  | none =>
    have nil : xs = [] := h
    simp [MinaRust.keepBest, IsBest, nil]
  | some y =>
    obtain ⟨mem, le⟩ := h
    unfold MinaRust.keepBest
    dsimp only
    split
    · next lt =>
      refine ⟨by simp, fun z hz => ?_⟩
      rcases mem_append.1 hz with old | new
      · exact (le z old).trans lt.le
      · rw [mem_singleton.1 new]
    · next ge =>
      refine ⟨mem_append_left _ mem, fun z hz => ?_⟩
      rcases mem_append.1 hz with old | new
      · exact le z old
      · rw [mem_singleton.1 new]
        exact not_lt.1 ge

theorem IsBest.foldl : ∀ (xs : List α) {ys : List α} {o : Option α}, IsBest rank ys o →
    IsBest rank (ys ++ xs) (xs.foldl (MinaRust.keepBest rank) o)
  | [], ys, o, h => by simpa using h
  | x :: xs, ys, o, h => by
    have rest := IsBest.foldl xs (h.keepBest x)
    rwa [append_assoc, singleton_append] at rest

/-- **The rank of the best depends only on which items were offered.** -/
theorem IsBest.rank_eq {xs ys : List α} {o o' : Option α} (h : IsBest rank xs o) (h' : IsBest rank ys o')
    (same : ∀ x, x ∈ xs ↔ x ∈ ys) : o.map rank = o'.map rank := by
  cases o with
  | none =>
    have nil : xs = [] := h
    cases o' with
    | none => rfl
    | some y => exact absurd ((same y).2 h'.1) (by simp [nil])
  | some x =>
    cases o' with
    | none =>
      have nil : ys = [] := h'
      exact absurd ((same x).1 h.1) (by simp [nil])
    | some y =>
      have le : rank x ≤ rank y := h'.2 x ((same x).1 h.1)
      have ge : rank y ≤ rank x := h.2 y ((same y).2 h'.1)
      exact congrArg some (le_antisymm le ge)

theorem rank_le_foldl : ∀ (xs : List α) (y : α), ∃ z, xs.foldl (keepBest rank) (some y) = some z ∧ rank y ≤ rank z
  | [], y => ⟨y, rfl, le_rfl⟩
  | x :: xs, y => by
    rw [foldl_cons, keepBest]
    split
    · next lt =>
      obtain ⟨z, eq, le⟩ := rank_le_foldl xs x
      exact ⟨z, eq, lt.le.trans le⟩
    · exact rank_le_foldl xs y

end MinaRust
