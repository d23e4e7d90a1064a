/-
  Lists in which an element is found and changed by its key.

  `List.replaceF` changes the first element that a partial function accepts.  When it
  accepts at most one element it is a `map` (`replaceF_eq_map`), and so is a change of
  the first element with a key when the keys are distinct (`replaceKey_eq_map`).
-/
import Mathlib

namespace MinaRust

open List

variable {α κ : Type}

variable {l : List α}

theorem replaceF_eq_map {f : α → Option α} (once : l.Pairwise fun a b => f a = none ∨ f b = none) :
    l.replaceF f = l.map fun a => (f a).getD a := by
  induction l with
  | nil => rfl
  | cons a l ih =>
    obtain ⟨first, once⟩ := pairwise_cons.1 once
    cases accepted : f a with
    | none => rw [replaceF_cons_of_none _ accepted, ih once, map_cons, accepted, Option.getD_none]
    | some a' =>
      have others : ∀ b ∈ l, (f b).getD b = b := by
        intro b mem
        rcases first b mem with none | none
        · cases accepted.symm.trans none
        · rw [none, Option.getD_none]
      rw [replaceF_cons_of_some _ accepted, map_cons, accepted, Option.getD_some,
        map_congr_left others, map_id']

theorem forall₂_replaceF {R : α → α → Prop} {f : α → Option α} (refl : ∀ a, R a a)
    (changed : ∀ a a', f a = some a' → R a a') : ∀ l : List α, List.Forall₂ R l (l.replaceF f)
  | [] => .nil
  | a :: l => by
    cases accepted : f a with
    | none =>
      rw [replaceF_cons_of_none _ accepted]
      exact .cons (refl a) (forall₂_replaceF refl changed l)
    | some a' =>
      rw [replaceF_cons_of_some _ accepted]
      exact .cons (changed a a' accepted) (forall₂_same.2 fun b _ => refl b)

variable {a : α}

theorem replaceF_append_cons {f : α → Option α} {l₁ l₂ : List α} {a' : α} (before : ∀ b ∈ l₁, f b = none)
    (accepted : f a = some a') : (l₁ ++ a :: l₂).replaceF f = l₁ ++ a' :: l₂ := by
  induction l₁ with
  | nil => exact replaceF_cons_of_some _ accepted
  | cons b l₁ ih =>
    rw [forall_mem_cons] at before
    rw [cons_append, replaceF_cons_of_none _ before.1, ih before.2, cons_append]

variable [DecidableEq κ] (key : α → κ)

def replaceKey (k : κ) (f : α → α) (l : List α) : List α :=
  l.replaceF fun a => if key a = k then some (f a) else none

/-- The last element with the key `k`: what a map collected from the list holds under `k`. -/
def lastWith (k : κ) (l : List α) : Option α := l.reverse.find? fun a => key a = k

def without (k : κ) (l : List α) : List α := l.filter fun a => key a ≠ k

variable {key}

theorem lastWith_eq_some {k : κ} (h : lastWith key k l = some a) : a ∈ l ∧ key a = k := by
  refine ⟨mem_reverse.1 (mem_of_find?_eq_some h), ?_⟩
  have found := List.find?_some h
  exact of_decide_eq_true found

theorem lastWith_eq_none {k : κ} : lastWith key k l = none ↔ ∀ a ∈ l, key a ≠ k := by
  simp [lastWith]

theorem lastWith_without {k k' : κ} (ne : k ≠ k') (l : List α) : lastWith key k (without key k' l) = lastWith key k l := by
  rw [lastWith, lastWith, without, ← filter_reverse, List.find?_filter]
  refine List.find?_congr fun a _ => ?_
  by_cases here : key a = k
  · simp [here, ne]
  · simp [here]

theorem replaceKey_eq_map (distinct : (l.map key).Nodup) (k : κ) (f : α → α) :
    replaceKey key k f l = l.map fun a => if key a = k then f a else a := by
  rw [replaceKey, replaceF_eq_map]
  · refine map_congr_left fun a _ => ?_
    split <;> rfl
  · refine (pairwise_map.1 distinct).imp fun {a b} ne => ?_
    by_cases ha : key a = k
    · exact .inr (if_neg fun hb => ne (ha.trans hb.symm))
    · exact .inl (if_neg ha)

theorem replaceKey_append_cons {l₁ l₂ : List α} (before : ∀ b ∈ l₁, key b ≠ key a) (f : α → α) :
    replaceKey key (key a) f (l₁ ++ a :: l₂) = l₁ ++ f a :: l₂ :=
  replaceF_append_cons (fun b mem => if_neg (before b mem)) (if_pos rfl)

theorem find?_key (distinct : (l.map key).Nodup) (mem : a ∈ l) : l.find? (fun b => key b = key a) = some a := by
  cases found : l.find? (fun b => key b = key a) with
  | none => exact absurd (decide_eq_true rfl) (List.find?_eq_none.1 found a mem)
  | some b =>
    have same : key b = key a := by simpa using List.find?_some found
    rw [inj_on_of_nodup_map distinct (mem_of_find?_eq_some found) mem same]

end MinaRust
