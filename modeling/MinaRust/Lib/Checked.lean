/-
  Computations that can stop: checked subtraction and assertions in `Except`.

  `bind_eq_ok` takes a successful sequence of steps apart, `foldlM_induction` a successful
  loop, and `foldlM_good_iff` says when all states of a run are good.  `Along` is a condition
  on the steps of a run.  `Ends x P E` is a postcondition for both ways to end: the result is
  in `P`, the error in `E`.
-/
import Mathlib.Data.List.Induction
import Mathlib.Data.Nat.Basic

namespace MinaRust

open List

variable {ε α β : Type}

/-- `a - b`, stopping with `e` when it would underflow. -/
def checkedSub (e : ε) (a b : ℕ) : Except ε ℕ := if b ≤ a then .ok (a - b) else .error e

/-- Go on when `p` holds, stop with `e` otherwise. -/
def ensure (e : ε) (p : Prop) [Decidable p] : Except ε Unit := if p then .ok () else .error e

/-- The value of an option, stopping with `e` when there is none. -/
def okOr (e : ε) : Option α → Except ε α
  | some a => .ok a
  | none => .error e

variable {e : ε}

theorem okOr_eq_ok {o : Option α} {a : α} : okOr e o = .ok a ↔ o = some a := by
  cases o <;> simp [okOr]

@[simp] theorem checkedSub_of_le {a b : ℕ} (h : b ≤ a) : checkedSub e a b = .ok (a - b) :=
  if_pos h

@[simp] theorem ensure_of {p : Prop} [Decidable p] (h : p) : ensure e p = .ok () :=
  if_pos h

theorem ensure_eq_ok {p : Prop} [Decidable p] {u : Unit} : ensure e p = .ok u ↔ p := by
  rw [ensure]
  split <;> simp [*]

theorem checkedSub_eq_ok {a b c : ℕ} : checkedSub e a b = .ok c ↔ b ≤ a ∧ a - b = c := by
  rw [checkedSub]
  split <;> simp [*]

@[simp] theorem ok_bind (a : α) (f : α → Except ε β) : (Except.ok a >>= f) = f a := rfl

@[simp] theorem error_bind (e : ε) (f : α → Except ε β) :
    ((Except.error e : Except ε α) >>= f) = .error e := rfl

variable {x : Except ε α} {f : α → Except ε β}

theorem bind_eq_ok {b : β} : x >>= f = .ok b ↔ ∃ a, x = .ok a ∧ f a = .ok b := by
  cases x <;> simp

theorem bind_eq_error : x >>= f = .error e ↔ x = .error e ∨ ∃ a, x = .ok a ∧ f a = .error e := by
  cases x <;> simp

theorem map_eq_ok {f : α → β} {b : β} : f <$> x = .ok b ↔ ∃ a, x = .ok a ∧ f a = b := by
  cases x <;> simp

theorem mapM_eq_ok {ε α β : Type} {f : α → Except ε β} {g : α → β} :
    ∀ {xs : List α}, (∀ x ∈ xs, f x = .ok (g x)) → xs.mapM f = .ok (xs.map g)
  | [], _ => rfl
  | x :: xs, h => by
    rw [forall_mem_cons] at h
    rw [mapM_cons, h.1, mapM_eq_ok h.2]
    rfl

theorem mapM_ok_of_preimage {ε α β : Type} {f : α → Except ε β} {h : β → α} :
    ∀ {l : List α}, (∀ x ∈ l, ∃ y, f x = .ok y ∧ h y = x) → ∃ ys, l.mapM f = .ok ys ∧ ys.map h = l
  | [], _ => ⟨[], rfl, rfl⟩
  | x :: l, H => by
    rw [forall_mem_cons] at H
    obtain ⟨⟨y, hy, hx⟩, H⟩ := H
    obtain ⟨ys, hys, hl⟩ := mapM_ok_of_preimage H
    refine ⟨y :: ys, ?_, by rw [map_cons, hx, hl]⟩
    rw [mapM_cons, hy, hys]
    rfl

theorem foldlM_induction {ε α σ : Type} {f : σ → α → Except ε σ} {P : σ → Prop} :
    ∀ {xs : List α} {s s' : σ}, (∀ x ∈ xs, ∀ s s', P s → f s x = .ok s' → P s') → P s →
      xs.foldlM f s = .ok s' → P s'
  | [], s, s', _, hs, h => by
    cases h
    exact hs
  | x :: xs, s, s', step, hs, h => by
    rw [foldlM_cons, bind_eq_ok] at h
    obtain ⟨s₁, first, rest⟩ := h
    exact foldlM_induction (fun y hy => step y (mem_cons_of_mem x hy))
      (step x mem_cons_self s s₁ hs first) rest

theorem foldlM_total {ε α σ : Type} {f : σ → α → Except ε σ} {P : σ → Prop}
    (step : ∀ s a, P s → ∃ s', f s a = .ok s' ∧ P s') :
    ∀ (xs : List α) {s : σ}, P s → ∃ s', xs.foldlM f s = .ok s' ∧ P s'
  | [], s, hs => ⟨s, rfl, hs⟩
  | x :: xs, s, hs => by
    obtain ⟨s₁, first, hs₁⟩ := step s x hs
    obtain ⟨s', rest, hs'⟩ := foldlM_total step xs hs₁
    exact ⟨s', by rw [foldlM_cons, first, ok_bind, rest], hs'⟩

theorem foldlM_error {ε α σ : Type} {f : σ → α → Except ε σ} {Q : ε → Prop} :
    ∀ {xs : List α} {s : σ} {e : ε}, (∀ x ∈ xs, ∀ s e, f s x = .error e → Q e) →
      xs.foldlM f s = .error e → Q e
  | [], s, e, _, h => by cases h
  | x :: xs, s, e, step, h => by
    rw [foldlM_cons, bind_eq_error] at h
    rcases h with first | ⟨s₁, -, rest⟩
    · exact step x mem_cons_self s e first
    · exact foldlM_error (fun y hy => step y (mem_cons_of_mem x hy)) rest

variable {σ : Type}

theorem foldlM_concat {f : σ → α → Except ε σ} {before : List α} {s₀ s : σ} (a : α)
    (run : before.foldlM f s₀ = .ok s) : (before ++ [a]).foldlM f s₀ = f s a := by
  rw [foldlM_append, run, ok_bind, foldlM_cons]
  exact bind_pure _

/-- **When all states of a run are good**: exactly when all its steps are. -/
theorem foldlM_good_iff {f : σ → α → Except ε σ} {Good : σ → Prop} {Step : σ → α → Prop} {s₀ : σ} {xs : List α}
    (Inv : σ → Prop) (init : Inv s₀) (good : ∀ s, Inv s → Good s)
    (step : ∀ before a s s', before ++ [a] <+: xs → before.foldlM f s₀ = .ok s → f s a = .ok s' → Inv s → (Step s a → Inv s') ∧ (Good s' → Step s a)) :
    (∀ before s, before <+: xs → before.foldlM f s₀ = .ok s → Good s) ↔
      ∀ before a s s', before ++ [a] <+: xs → before.foldlM f s₀ = .ok s → f s a = .ok s' → Step s a := by
  -- both sides give the invariant all along
  have inv : (∀ before a s s', before ++ [a] <+: xs → before.foldlM f s₀ = .ok s → f s a = .ok s' →
      Step s a ∨ Good s') → ∀ before s, before <+: xs → before.foldlM f s₀ = .ok s → Inv s := by
    intro either before
    induction before using List.reverseRecOn with
    | nil =>
      intro s _ run
      cases run
      exact init
    | append_singleton before a ih =>
      intro s' pre run
      obtain ⟨s, run₀, -⟩ := bind_eq_ok.1 ((foldlM_append ..).symm.trans run)
      have last : f s a = .ok s' := (foldlM_concat a run₀).symm.trans run
      obtain ⟨keep, back⟩ := step before a s s' pre run₀ last (ih s ((prefix_append ..).trans pre) run₀)
      exact keep ((either before a s s' pre run₀ last).elim id back)
  constructor
  · intro all before a s s' pre run last
    have results : ∀ before a s s', before ++ [a] <+: xs → before.foldlM f s₀ = .ok s → f s a = .ok s' → Good s' :=
      fun before a s s' pre run last => all (before ++ [a]) s' pre ((foldlM_concat a run).trans last)
    have here := inv (fun before a s s' pre run last => .inr (results before a s s' pre run last)) before s
      ((prefix_append ..).trans pre) run
    exact (step before a s s' pre run last here).2 (results before a s s' pre run last)
  · intro steps before s pre run
    exact good s (inv (fun before a s s' pre run last => .inl (steps before a s s' pre run last)) before s pre run)

theorem forall_steps_cons {f : σ → α → σ} {Q : σ → α → Prop} {s : σ} {x : α} {xs : List α} :
    (∀ before a, before ++ [a] <+: x :: xs → Q (before.foldl f s) a) ↔
      Q s x ∧ ∀ before a, before ++ [a] <+: xs → Q (before.foldl f (f s x)) a := by
  constructor
  · intro all
    refine ⟨all [] x (prefix_append [x] xs), fun before a pre => ?_⟩
    exact all (x :: before) a (prefix_cons_inj x |>.2 pre)
  · rintro ⟨first, rest⟩ before a pre
    cases before with
    | nil =>
      obtain ⟨rfl, -⟩ := cons_prefix_cons.1 pre
      exact first
    | cons y before =>
      obtain ⟨rfl, tail⟩ := cons_prefix_cons.1 pre
      exact rest before a tail

/-- **When all steps of a run are good**: exactly when all meet a condition that keeps the
    invariant. All steps may be assumed in `Pre`. -/
theorem foldl_good_iff_of {α σ : Type} {f : σ → α → σ} {Pre Good Step : σ → α → Prop} (Inv : σ → Prop)
    (step : ∀ s a, Inv s → Pre s a → (Good s a ↔ Step s a) ∧ (Step s a → Inv (f s a))) :
    ∀ (xs : List α) {s₀ : σ}, Inv s₀ → (∀ before a, before ++ [a] <+: xs → Pre (before.foldl f s₀) a) →
      ((∀ before a, before ++ [a] <+: xs → Good (before.foldl f s₀) a) ↔
        ∀ before a, before ++ [a] <+: xs → Step (before.foldl f s₀) a)
  | [], s₀, _, _ => by simp
  | x :: xs, s₀, inv, pre => by
    obtain ⟨first, later⟩ := forall_steps_cons.1 pre
    obtain ⟨here, keeps⟩ := step s₀ x inv first
    rw [forall_steps_cons, forall_steps_cons, here]
    exact and_congr_right fun meets => foldl_good_iff_of Inv step xs (keeps meets) later

theorem foldl_good_iff {f : σ → α → σ} {Good Step : σ → α → Prop} (Inv : σ → Prop)
    (step : ∀ s a, Inv s → (Good s a ↔ Step s a) ∧ (Step s a → Inv (f s a))) (xs : List α) {s₀ : σ}
    (inv : Inv s₀) :
    (∀ before a, before ++ [a] <+: xs → Good (before.foldl f s₀) a) ↔
      ∀ before a, before ++ [a] <+: xs → Step (before.foldl f s₀) a :=
  foldl_good_iff_of Inv (fun s a inv (_ : True) => step s a inv) xs inv fun _ _ _ => trivial

def Along {ε α σ : Type} (f : σ → α → Except ε σ) (P : σ → α → Prop) : σ → List α → Prop
  | _, [] => True
  | s, a :: rest => P s a ∧ ∀ s', f s a = .ok s' → Along f P s' rest

theorem Along.of_forall {ε α σ : Type} {f : σ → α → Except ε σ} {P : σ → α → Prop} (all : ∀ s a, P s a) :
    ∀ (xs : List α) (s : σ), Along f P s xs
  | [], _ => trivial
  | x :: xs, s => ⟨all s x, fun s' _ => Along.of_forall all xs s'⟩

theorem Along.append {ε α σ : Type} {f : σ → α → Except ε σ} {P : σ → α → Prop} :
    ∀ {xs ys : List α} {s : σ}, Along f P s xs → (∀ s', xs.foldlM f s = .ok s' → Along f P s' ys) →
      Along f P s (xs ++ ys)
  | [], _, s, _, h => h s rfl
  | x :: xs, _, s, ⟨here, rest⟩, h => by
    refine ⟨here, fun s₁ first => (rest s₁ first).append fun s' run => h s' ?_⟩
    rw [foldlM_cons, first]
    exact run

theorem Along.induction {ε α σ : Type} {f : σ → α → Except ε σ} {P : σ → α → Prop} {Inv : σ → Prop}
    (step : ∀ {s a s'}, Inv s → P s a → f s a = .ok s' → Inv s') :
    ∀ {xs : List α} {s s' : σ}, Along f P s xs → Inv s → xs.foldlM f s = .ok s' → Inv s'
  | [], s, s', _, inv, run => by
    cases run
    exact inv
  | x :: xs, s, s', ⟨here, rest⟩, inv, run => by
    obtain ⟨s₁, first, run⟩ := bind_eq_ok.1 ((foldlM_cons ..).symm.trans run)
    exact (rest s₁ first).induction step (step inv here first) run

/-! ## Postconditions -/

/-- `x` ends with a result in `P` or with an error in `E`. -/
def Ends (x : Except ε α) (P : α → Prop) (E : ε → Prop) : Prop :=
  match x with
  | .ok a => P a
  | .error e => E e

variable {P Q : α → Prop} {R : β → Prop} {E : ε → Prop}

theorem Ends.ok {a : α} (h : P a) : Ends (.ok a) P E := h

theorem Ends.error (h : E e) : Ends (.error e : Except ε α) P E := h

theorem Ends.imp (h : Ends x P E) (sub : ∀ a, P a → Q a) : Ends x Q E := by
  cases x with
  | ok a => exact sub a h
  | error e => exact h

theorem Ends.of_ok (h : Ends x (fun _ => True) E) (ok : ∀ a, x = .ok a → P a) : Ends x P E := by
  cases x with
  | ok a => exact ok a rfl
  | error e => exact h

theorem Ends.bind (h : Ends x P E) (next : ∀ a, P a → Ends (f a) R E) : Ends (x >>= f) R E := by
  cases x with
  | ok a => exact next a h
  | error e => exact h

theorem Ends.ensure {e : ε} {p : Prop} [Decidable p] {f : Unit → Except ε β} (he : E e)
    (next : p → Ends (f ()) R E) : Ends (ensure e p >>= f) R E := by
  unfold MinaRust.ensure
  split
  · next h => exact next h
  · exact he

theorem Ends.okOr {e : ε} {o : Option α} {f : α → Except ε β} (he : E e)
    (next : ∀ a, o = some a → Ends (f a) R E) : Ends (okOr e o >>= f) R E := by
  cases o with
  | some a => exact next a rfl
  | none => exact he

theorem Ends.okOr_some {o : Option α} {a : α} (h : o = some a) (next : Ends (f a) R E) :
    Ends (MinaRust.okOr e o >>= f) R E := by
  rw [h]
  exact next

theorem Ends.checkedSub_le {a b : ℕ} {f : ℕ → Except ε β} (h : b ≤ a) (next : Ends (f (a - b)) R E) :
    Ends (MinaRust.checkedSub e a b >>= f) R E := by
  rw [checkedSub_of_le h]
  exact next

theorem Ends.checkedSub {e : ε} {a b : ℕ} {f : ℕ → Except ε β} (he : E e)
    (next : b ≤ a → Ends (f (a - b)) R E) : Ends (checkedSub e a b >>= f) R E := by
  unfold MinaRust.checkedSub
  split
  · next h => exact next h
  · exact he

theorem Ends.foldlM {σ : Type} {f : σ → α → Except ε σ} (step : ∀ s a, Ends (f s a) (fun _ => True) E) :
    ∀ (xs : List α) (s : σ), Ends (xs.foldlM f s) (fun _ => True) E
  | [], _ => trivial
  | x :: xs, s => by
    rw [foldlM_cons]
    exact (step s x).bind fun s' _ => Ends.foldlM step xs s'

theorem Ends.result {a : α} (h : Ends x P E) (run : x = .ok a) : P a := by
  rw [run] at h
  exact h

end MinaRust
