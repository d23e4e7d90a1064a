/-
  A slab: storage in numbered slots that reuses the slot freed last.

  A slab carries the proof that its stack holds exactly the vacant positions, each once, so
  that the next key is always vacant.
-/
import Mathlib

namespace MinaRust

open List

structure Slab (α : Type) where
  entries : List (Option α)
  /-- The vacant keys, the one freed last in front. -/
  free : List ℕ
  free_nodup : free.Nodup
  mem_free : ∀ k, k ∈ free ↔ entries[k]? = some none

namespace Slab

variable {α : Type}

def new : Slab α := ⟨[], [], .nil, by simp⟩

variable (s : Slab α) (a : α) (key : ℕ)

def get : Option α := s.entries[key]?.join

def vacantKey (s : Slab α) : ℕ := s.free.headD s.entries.length

def insert : Slab α :=
  match h : s.free with
  | [] => ⟨s.entries ++ [some a], [], .nil, by
      intro k
      have none := s.mem_free k
      rw [h] at none
      rcases lt_trichotomy k s.entries.length with lt | rfl | gt
      · rw [getElem?_append_left lt]
        exact none
      · simp
      · rw [getElem?_eq_none (by simpa using gt)]
        simp⟩
  | key :: free => ⟨s.entries.set key (some a), free, (nodup_cons.1 (h ▸ s.free_nodup)).2, by
      intro k
      have vacant := s.mem_free k
      have fresh := (nodup_cons.1 (h ▸ s.free_nodup)).1
      rw [h, mem_cons] at vacant
      rw [getElem?_set]
      split
      · next eq =>
        subst eq
        refine ⟨fun mem => absurd mem fresh, fun some => ?_⟩
        split at some <;> simp at some
      · next ne =>
        rw [← vacant]
        exact ⟨.inr, fun mem => mem.resolve_left (Ne.symm ne)⟩⟩

def tryRemove : Option α × Slab α :=
  match h : s.get key with
  | none => (none, s)
  | some a => (some a, ⟨s.entries.set key none, key :: s.free, by
      refine nodup_cons.2 ⟨fun mem => ?_, s.free_nodup⟩
      rw [get, (s.mem_free key).1 mem] at h
      simp at h, by
      intro k
      have inside : key < s.entries.length := by
        by_contra out
        rw [get, getElem?_eq_none (Nat.le_of_not_lt out)] at h
        simp at h
      rw [mem_cons, getElem?_set, s.mem_free k]
      split
      · next eq => simp [← eq, inside]
      · next ne => simp [Ne.symm ne]⟩)

def iter : List (ℕ × α) :=
  s.entries.zipIdx.filterMap fun e => e.1.map fun a => (e.2, a)

@[simp] theorem get_new : (new : Slab α).get key = none := rfl

theorem get_vacantKey : s.get s.vacantKey = none := by
  unfold vacantKey get
  cases h : s.free with
  | nil => simp
  | cons key free =>
    have vacant := (s.mem_free key).1 (by simp [h])
    simp [vacant]

theorem get_insert : (s.insert a).get key = if key = s.vacantKey then some a else s.get key := by
  unfold insert vacantKey
  split
  · next h =>
    simp only [get, h, headD_nil]
    split
    · next eq => simp [eq]
    · next ne =>
      rcases Nat.lt_or_gt_of_ne ne with lt | gt
      · rw [getElem?_append_left lt]
      · rw [getElem?_eq_none (by simpa using gt), getElem?_eq_none gt.le]
  · next vacant free h =>
    have inside : vacant < s.entries.length := by
      have none := (s.mem_free vacant).1 (by simp [h])
      exact (List.getElem?_eq_some_iff.1 none).1
    simp only [get, h, headD_cons, getElem?_set]
    by_cases eq : key = vacant
    · simp [eq, inside]
    · simp [eq, Ne.symm eq]

theorem tryRemove_fst : (s.tryRemove key).1 = s.get key := by
  unfold tryRemove
  split <;> simp_all

theorem get_tryRemove (k : ℕ) : (s.tryRemove key).2.get k = if k = key then none else s.get k := by
  unfold tryRemove
  split
  · next h =>
    split
    · next eq => rw [eq, h]
    · rfl
  · next a h =>
    simp only [get, getElem?_set]
    by_cases eq : k = key
    · by_cases inside : key < s.entries.length <;> simp [eq, inside]
    · simp [eq, Ne.symm eq]

theorem vacantKey_tryRemove {key : ℕ} (occupied : s.get key ≠ none) : (s.tryRemove key).2.vacantKey = key := by
  unfold tryRemove
  split
  · next h => exact absurd h occupied
  · rfl

theorem mem_iter {s : Slab α} {key : ℕ} {a : α} : (key, a) ∈ s.iter ↔ s.get key = some a := by
  simp only [iter, get, mem_filterMap, mem_zipIdx_iff_getElem?, Prod.exists,
    Option.map_eq_some_iff, Prod.mk.injEq]
  constructor
  · rintro ⟨o, k, stored, b, rfl, rfl, rfl⟩
    simp [stored]
  · intro found
    exact ⟨some a, key, Option.join_eq_some_iff.1 found, a, rfl, rfl, rfl⟩

theorem nodup_iter : (s.iter.map Prod.fst).Nodup := by
  have keys : (s.iter.map Prod.fst).Sublist (s.entries.zipIdx.map Prod.snd) := by
    unfold iter
    generalize s.entries.zipIdx = es
    induction es with
    | nil => simp
    | cons e es ih =>
      rcases e with ⟨_ | a, k⟩
      · exact ih.cons _
      · exact ih.cons_cons _
  rw [zipIdx_map_snd] at keys
  exact keys.nodup nodup_range'

end Slab

end MinaRust
