/-
  Which tree is worked on, at which height, and how much work that is.

  With `D = delay + 1`, the older tree at position `i` is worked on at height `i / D` when
  `i % D = D - 1`; it then has `cap i` jobs.  A period is the time between two new trees.
  After `q` results of a period the trees from position `i` on are `Busy i q`; at its end
  they are `Busy (i + 1) 0`, one position further.
-/
import MinaRust.ParallelScan.Update

namespace MinaRust.ParallelScan

open List

variable {B M : Type} {k D : ℕ}

/-! ## Positions -/

variable {i : ℕ}

theorem succ_div_of_worked (hD : 0 < D) (hi : i % D = D - 1) : (i + 1) / D = i / D + 1 := by
  have hdm := Nat.div_add_mod i D
  have he : i + 1 = D * (i / D + 1) := by rw [Nat.mul_add, Nat.mul_one]; omega
  rw [he, Nat.mul_div_cancel_left _ hD]

theorem succ_div_of_other (hD : 0 < D) (hi : i % D ≠ D - 1) : (i + 1) / D = i / D := by
  have hdm := Nat.div_add_mod i D
  have hlt := Nat.mod_lt i hD
  have he : i + 1 = D * (i / D) + (i % D + 1) := by omega
  rw [he, Nat.mul_add_div hD, Nat.div_eq_of_lt (show i % D + 1 < D by omega), Nat.add_zero]

theorem succ_mod_of_worked (hD : 0 < D) (hi : i % D = D - 1) : (i + 1) % D = 0 := by
  rw [Nat.add_mod, hi]
  rcases Nat.lt_or_ge 1 D with h | h
  · rw [Nat.mod_eq_of_lt h, show D - 1 + 1 = D by omega, Nat.mod_self]
  · obtain rfl : D = 1 := by omega
    rfl

theorem div_le_of_lt (hi : i < (k + 1) * D) : i / D ≤ k :=
  Nat.lt_succ_iff.1 (Nat.div_lt_of_lt_mul (by rwa [Nat.mul_comm] at hi))

/-- The number of jobs of the tree at position `i`, if it is worked on. -/
def cap (k D i : ℕ) : ℕ := if i % D = D - 1 ∧ i / D ≤ k then 2 ^ (k - i / D) else 0

theorem cap_of_worked (hi : i % D = D - 1) (hk : i / D ≤ k) : cap k D i = 2 ^ (k - i / D) :=
  if_pos ⟨hi, hk⟩

theorem cap_of_other (hi : i % D ≠ D - 1) : cap k D i = 0 := if_neg fun h => hi h.1

/-- The work of a period for `n` trees from position `i` on. -/
def load (k D : ℕ) : ℕ → ℕ → ℕ
  | _, 0 => 0
  | i, n + 1 => cap k D i + load k D (i + 1) n

theorem load_snoc : ∀ n i : ℕ, load k D i (n + 1) = load k D i n + cap k D (i + n)
  | 0, i => by simp [load]
  | n + 1, i => by
    have := load_snoc n (i + 1)
    rw [load, this, load, show i + 1 + n = i + (n + 1) by omega]
    omega

theorem load_add (hD : 0 < D) : ∀ n i : ℕ, load k D i n + 2 ^ (k + 1 - (i + n) / D) = 2 ^ (k + 1 - i / D)
  | 0, i => Nat.zero_add _
  | n + 1, i => by
    have ih := load_add hD n (i + 1)
    rw [load, show i + (n + 1) = i + 1 + n by omega]
    by_cases hw : i % D = D - 1
    · rw [succ_div_of_worked hD hw] at ih
      rcases Nat.lt_or_ge k (i / D) with hlt | hge
      · rw [cap, if_neg (by omega), Nat.zero_add, ih]
        congr 1
        omega
      · rw [cap_of_worked hw hge, two_pow_sub hge]
        rw [show k + 1 - (i / D + 1) = k - i / D by omega] at ih
        omega
    · rw [succ_div_of_other hD hw] at ih
      rw [cap_of_other hw]
      omega

theorem load_succ_le (hD : 0 < D) (n i : ℕ) : load k D i n + 1 ≤ 2 ^ (k + 1 - i / D) :=
  load_add hD n i ▸ Nat.add_le_add_left Nat.one_le_two_pow _

theorem load_full (hD : 0 < D) (n i : ℕ) (h : i + n = (k + 1) * D) : load k D i n + 1 = 2 ^ (k + 1 - i / D) := by
  rw [← load_add hD n i, h, Nat.mul_div_cancel _ hD, Nat.sub_self, pow_zero]

/-! ## Work -/

def workFrom (k D : ℕ) : ℕ → List (ScanTree B M k) → List (AvailableJob B M)
  | _, [] => []
  | i, t :: ts =>
    (if i % D = D - 1 ∧ i / D ≤ k then todoAt (i / D) (jobs t) else []) ++ workFrom k D (i + 1) ts

theorem ceilLog2_two_pow (k : ℕ) : ceilLog2 (2 ^ k) = k := by
  unfold ceilLog2
  rcases k with _ | k
  · rfl
  · have hpos := Nat.two_pow_pos k
    have hpow : 2 ^ (k + 1) = 2 * 2 ^ k := by rw [pow_succ]; omega
    have hlog : Nat.log 2 (2 ^ (k + 1) - 1) = k :=
      (Nat.log_eq_iff (Or.inr ⟨by omega, by omega⟩)).2 ⟨by omega, by omega⟩
    rw [if_neg (by omega), hlog]

theorem workToDo_from (hD : 0 < D) : ∀ (ts : List (ScanTree B M k)) (i : ℕ),
    (((((ts.map flat).zipIdx i).filterMap fun x => if x.2 % D = D - 1 then some x.1 else none).take
        (k + 1 - i / D)).zipIdx (i / D)).flatMap (fun x => x.1.jobsOnLevel k (k - x.2)) =
      workFrom k D i ts
  | [], i => by simp [workFrom]
  | t :: ts, i => by
    have ih := workToDo_from hD ts (i + 1)
    rw [map_cons, zipIdx_cons, workFrom]
    by_cases hw : i % D = D - 1
    · simp only [filterMap_cons, if_pos hw]
      rw [succ_div_of_worked hD hw] at ih
      rcases Nat.lt_or_ge k (i / D) with hlt | hge
      · rw [show k + 1 - (i / D + 1) = 0 by omega, take_zero] at ih
        rw [show k + 1 - i / D = 0 by omega, take_zero, if_neg (by omega), ← ih]
        rfl
      · rw [show k + 1 - i / D = k + 1 - (i / D + 1) + 1 by omega, take_succ_cons,
          zipIdx_cons, flatMap_cons, ih, jobsOnLevel_flat (Nat.sub_le ..),
          if_pos ⟨hw, hge⟩, Nat.sub_sub_self hge]
    · simp only [filterMap_cons, if_neg hw]
      rw [succ_div_of_other hD hw] at ih
      rw [ih, if_neg (fun h => hw h.1), nil_append]

theorem work_flat (hD : 0 < D) (ts : List (ScanTree B M k)) :
    work (ts.map flat) D (2 ^ k) = workFrom k D 0 ts := by
  have h := workToDo_from hD ts 0
  rw [Nat.zero_div, Nat.sub_zero] at h
  unfold work workToDo
  rw [ceilLog2_two_pow]
  exact h

/-! ## Periods -/

/-- The trees from position `i` on after `q` results of a period. -/
def Busy (k D : ℕ) : ℕ → ℕ → List (ScanTree B M k) → Prop
  | _, _, [] => True
  | i, q, t :: ts =>
    Shape (i / D) (min q (cap k D i)) (jobs t) ∧ Weighted (i / D) (min q (cap k D i)) t ∧
      Busy k D (i + 1) (q - cap k D i) ts

theorem Busy.length_workFrom : ∀ {ts : List (ScanTree B M k)} {i q : ℕ},
    Busy k D i q ts → (workFrom k D i ts).length = load k D i ts.length - q
  | [], i, q, _ => by simp [workFrom, load]
  | t :: ts, i, q, ⟨ht, _, hts⟩ => by
    rw [workFrom, length_append, length_workFrom hts, length_cons, load]
    split_ifs with hw
    · rw [cap_of_worked hw.1 hw.2] at ht ⊢
      rw [ht.length_todoAt hw.2 (Nat.min_le_right ..)]
      omega
    · rw [cap, if_neg hw, length_nil]
      omega

theorem Busy.workFrom_idle (hD : 0 < D) : ∀ {ts : List (ScanTree B M k)} {i : ℕ},
    Busy k D (i + 1) 0 ts → i + ts.length < (k + 1) * D → workFrom k D i ts = []
  | [], i, _, _ => rfl
  | t :: ts, i, ⟨ht, _, hts⟩, hlen => by
    rw [length_cons] at hlen
    rw [Nat.zero_sub] at hts
    rw [workFrom, workFrom_idle hD hts (by omega), append_nil]
    split_ifs with hw
    · have hk : (i + 1) / D ≤ k := div_le_of_lt (by omega)
      rw [succ_div_of_worked hD hw.1] at ht hk
      exact ht.todoAt_other hk (by omega) (by omega)
    · rfl

/-- All of the next period's work is there but the jobs whose children are still to be done. -/
theorem Busy.length_next (hD : 0 < D) : ∀ {ts : List (ScanTree B M k)} {i q : ℕ}, Busy k D i q ts →
      i + ts.length ≤ (k + 1) * D → q ≤ load k D i ts.length →
      (workFrom k D (i + 1) ts).length ≤ load k D (i + 1) ts.length ∧ 2 * load k D (i + 1) ts.length ≤
          2 * (workFrom k D (i + 1) ts).length + (load k D i ts.length - q) + min q 1
  | [], i, q, _, _, _ => by simp [workFrom, load]
  | t :: ts, i, q, ⟨ht, _, hts⟩, hlen, hq => by
    rw [length_cons] at hlen hq
    rw [load] at hq
    have hk : i / D ≤ k := div_le_of_lt (by omega)
    obtain ⟨h₁, h₂⟩ := length_next hD hts (by omega) (by omega)
    rw [workFrom, length_append, length_cons, load, load]
    by_cases hw : i % D = D - 1
    · rw [cap_of_worked hw hk] at ht hq h₂ ⊢
      rw [succ_div_of_worked hD hw, succ_mod_of_worked hD hw]
      split_ifs with hnext
      · have hpow : 2 ^ (k - i / D) = 2 * 2 ^ (k - (i / D + 1)) := by
          rw [← pow_succ', show k - (i / D + 1) + 1 = k - i / D by omega]
        rw [ht.length_todoAt_succ (by omega) (Nat.min_le_right ..), cap, if_pos (by
          rw [succ_div_of_worked hD hw, succ_mod_of_worked hD hw]; exact hnext),
          succ_div_of_worked hD hw]
        rw [hpow] at h₂ hq ⊢
        omega
      · have hpos := Nat.two_pow_pos (k - i / D)
        rw [cap, if_neg (by rwa [succ_div_of_worked hD hw, succ_mod_of_worked hD hw]), length_nil]
        omega
    · have hpos := Nat.two_pow_pos (k - i / D)
      rw [cap_of_other hw] at ht hq h₂ ⊢
      rw [Nat.min_zero] at ht
      rw [succ_div_of_other hD hw]
      split_ifs with hnext
      · rw [ht.length_todoAt hk (Nat.zero_le _), cap, if_pos (by rwa [succ_div_of_other hD hw]),
          succ_div_of_other hD hw]
        omega
      · rw [cap, if_neg (by rwa [succ_div_of_other hD hw]), length_nil]
        omega

def resetMerges (ts : List (ScanTree B M k)) : List (ScanTree B M k) :=
  ts.map fun t => (reweigh .merge t).1

theorem length_resetMerges (ts : List (ScanTree B M k)) :
    (resetMerges ts).length = ts.length := length_map _

/-- **The end of a period**: after a reset the trees are ready for the next
    position. -/
theorem Busy.finish (hD : 0 < D) : ∀ {ts : List (ScanTree B M k)} {i q : ℕ},
    Busy k D i q ts → load k D i ts.length ≤ q → i + ts.length < (k + 1) * D →
    Busy k D (i + 1) 0 (resetMerges ts)
  | [], _, _, _, _, _ => trivial
  | t :: ts, i, q, ⟨ht, _, hts⟩, hq, hlen => by
    rw [length_cons] at hlen hq
    rw [load] at hq
    have hk : (i + 1) / D ≤ k := div_le_of_lt (by omega)
    have hshape : Shape ((i + 1) / D) 0 (jobs t) := by
      by_cases hw : i % D = D - 1
      · rw [succ_div_of_worked hD hw] at hk ⊢
        rw [cap_of_worked hw (by omega)] at ht hq
        rw [min_eq_right (by omega)] at ht
        exact ht.finish (by omega)
      · rw [cap_of_other hw, Nat.min_zero] at ht
        rwa [succ_div_of_other hD hw]
    refine ⟨?_, ?_, by rw [Nat.zero_sub]; exact finish hD hts (by omega) (by omega)⟩
    · rw [Nat.zero_min, jobs_reweigh]; exact hshape
    · rw [Nat.zero_min]; exact (weighted_reweigh hk hshape).1

theorem Busy.of_append : ∀ {xs ys : List (ScanTree B M k)} {i q : ℕ},
    Busy k D i q (xs ++ ys) → Busy k D i q xs
  | [], _, _, _, _ => trivial
  | _ :: _, _, _, _, ⟨ht, hw, hts⟩ => ⟨ht, hw, of_append hts⟩

end MinaRust.ParallelScan
