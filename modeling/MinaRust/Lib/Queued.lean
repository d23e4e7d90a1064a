/-
  Maps with a queue of their keys, as first-in first-out caches keep them.

  `Queued map queue`: the queue has every key of the map once, and nothing else.
  `push`, `pop` and `erase` say how the two are changed together; `congr` that a change
  of values only needs no change of the queue; `length_eq` that both have the same size.
-/
import MinaRust.Lib.OrdMap

namespace MinaRust

open List OrdMap

variable {K V : Type} [LinearOrder K]

structure Queued (map : OrdMap K V) (queue : List K) : Prop where
  nodup : queue.Nodup
  mem_iff : ∀ k, k ∈ queue ↔ map.get k ≠ none

namespace Queued

variable {map map' : OrdMap K V} {queue : List K} {k : K}

theorem empty : Queued (OrdMap.empty : OrdMap K V) [] := ⟨nodup_nil, fun k => by simp⟩

theorem length_eq (queued : Queued map queue) : map.entries.length = queue.length := by
  have nodup : (map.entries.map Prod.fst).Nodup :=
    pairwise_map.2 (map.sorted.imp fun lt => lt.ne)
  have perm : (map.entries.map Prod.fst).Perm queue := by
    refine (perm_ext_iff_of_nodup nodup queued.nodup).2 fun k => ?_
    rw [queued.mem_iff, Option.ne_none_iff_exists', mem_map]
    constructor
    · rintro ⟨e, mem, rfl⟩
      exact ⟨e.2, get_eq_some.2 mem⟩
    · rintro ⟨v, found⟩
      exact ⟨(k, v), get_eq_some.1 found, rfl⟩
  rw [← perm.length_eq, length_map]

theorem congr (queued : Queued map queue) (same : ∀ k, map'.get k = none ↔ map.get k = none) : Queued map' queue :=
  ⟨queued.nodup, fun k => (queued.mem_iff k).trans (not_congr (same k).symm)⟩

theorem push (queued : Queued map queue) (new : map.get k = none) (v : V) :
    Queued (map.insert k v) (queue ++ [k]) := by
  constructor
  · refine nodup_append_comm.1 (nodup_cons.2 ⟨fun mem => ?_, queued.nodup⟩)
    exact (queued.mem_iff k).1 mem new
  · intro k'
    rw [mem_append, queued.mem_iff, mem_singleton, get_insert]
    by_cases same : k' = k <;> simp [same]

theorem not_push (queued : Queued map queue) (known : map.get k ≠ none) : ¬(queue ++ [k]).Nodup := by
  intro nodup
  exact (nodup_cons.1 (nodup_append_comm.1 nodup)).1 ((queued.mem_iff k).2 known)

theorem not_push_pop {k₀ : K} (queued : Queued map (k₀ :: queue)) (known : map.get k ≠ none) (v : V) :
    ¬Queued ((map.insert k v).remove k₀) (queue ++ [k]) := by
  intro queued'
  have there := (queued'.mem_iff k).1 (by simp)
  rw [get_remove] at there
  have ne : k ≠ k₀ := fun eq => there (if_pos eq)
  refine (nodup_cons.1 (nodup_append_comm.1 queued'.nodup)).1 ?_
  exact (mem_cons.1 ((queued.mem_iff k).2 known)).resolve_left ne

theorem pop (queued : Queued map (k :: queue)) : Queued (map.remove k) queue := by
  obtain ⟨fresh, nodup⟩ := nodup_cons.1 queued.nodup
  refine ⟨nodup, fun k' => ?_⟩
  have iff := queued.mem_iff k'
  rw [get_remove]
  by_cases same : k' = k
  · subst same
    simp [fresh]
  · simpa [same] using iff

theorem erase [BEq K] [LawfulBEq K] (queued : Queued map queue) (k : K) : Queued (map.remove k) (queue.erase k) := by
  refine ⟨queued.nodup.erase k, fun k' => ?_⟩
  rw [queued.nodup.mem_erase_iff, queued.mem_iff, get_remove]
  by_cases same : k' = k <;> simp [same]

theorem not_remove (queued : Queued map queue) (known : map.get k ≠ none) : ¬Queued (map.remove k) queue := by
  intro queued'
  refine (queued'.mem_iff k).1 ((queued.mem_iff k).2 known) ?_
  rw [get_remove, if_pos rfl]

theorem not_insert (queued : Queued map queue) (new : map.get k = none) (v : V) : ¬Queued (map.insert k v) queue := by
  intro queued'
  refine (queued.mem_iff k).1 ((queued'.mem_iff k).2 ?_) new
  rw [get_insert, if_pos rfl]
  exact Option.some_ne_none v

end Queued

end MinaRust
