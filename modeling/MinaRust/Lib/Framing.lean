/-
  Self-delimiting codes read from a stream that arrives in pieces.

  Each item has its code word; a reader buffers what has arrived and takes the complete
  words off the front.
-/
import Mathlib

namespace MinaRust.Framing

open List

variable {F B S : Type} {encode : F → List B}

/-- `p` is a proper part of the first word of `items`, or nothing when no item is left. -/
def Waits (encode : F → List B) : List F → List B → Prop
  | [], p => p = []
  | f :: _, p => p <+: encode f ∧ p.length < (encode f).length

variable {items : List F}

theorem Waits.eq_nil (waits : Waits encode items (items.flatMap encode)) : items = [] := by
  cases items with
  | nil => rfl
  | cons f items =>
    have short := waits.2
    rw [flatMap_cons, length_append] at short
    omega

/-- What has arrived of the words of `items` is some words and a remainder that waits. -/
theorem exists_waits {arrived : List B} (part : arrived <+: items.flatMap encode) :
    ∃ done rest p, items = done ++ rest ∧ arrived = done.flatMap encode ++ p ∧ Waits encode rest p := by
  induction items generalizing arrived with
  | nil => exact ⟨[], [], [], rfl, by simpa using part, rfl⟩
  | cons f items ih =>
    rw [flatMap_cons] at part
    by_cases short : arrived.length < (encode f).length
    · exact ⟨[], f :: items, arrived, rfl, rfl,
        prefix_of_prefix_length_le part (prefix_append ..) short.le, short⟩
    · -- the first word is complete: take it off and go on
      obtain ⟨later, rfl⟩ : encode f <+: arrived :=
        prefix_of_prefix_length_le (prefix_append ..) part (not_lt.1 short)
      obtain ⟨done, rest, p, rfl, rfl, waits⟩ := ih ((prefix_append_right_inj _).1 part)
      exact ⟨f :: done, rest, p, rfl, by simp, waits⟩

/-- `Has s items p`: the reader `s` has taken off `items` and buffers `p`. -/
theorem foldl_feed (Good : F → Prop) (feed : S → List B → S) (Has : S → List F → List B → Prop)
    (step : ∀ {s taken p chunk done rest p'}, Has s taken p → (∀ f ∈ done ++ rest, Good f) → p ++ chunk = done.flatMap encode ++ p' → Waits encode rest p' → Has (feed s chunk) (taken ++ done) p')
    {s : S} {taken : List F} {p : List B} (has : Has s taken p) (good : ∀ f ∈ items, Good f)
    (waits : Waits encode items p) {chunks : List (List B)} (cut : p ++ chunks.flatten = items.flatMap encode) :
    Has (chunks.foldl feed s) (taken ++ items) [] := by
  induction chunks generalizing s taken items p with
  | nil =>
    rw [flatten_nil, append_nil] at cut
    subst cut
    cases waits.eq_nil
    simpa using has
  | cons chunk chunks ih =>
    rw [flatten_cons, ← append_assoc] at cut
    obtain ⟨done, rest, p', rfl, eq, waits'⟩ := exists_waits ⟨_, cut⟩
    have has' := step has good eq waits'
    rw [foldl_cons, ← append_assoc]
    refine ih has' (fun f mem => good f (mem_append_right _ mem)) waits' ?_
    rw [eq, flatMap_append, append_assoc] at cut
    exact append_cancel_left cut

end MinaRust.Framing
