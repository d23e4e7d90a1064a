/-
  Counting jobs.

  `counts t` is the number of jobs to be done and of jobs done of a tree, where
  a merge job that has only its left result is half a job.  Both are determined
  by the shape of the tree (`Shape.counts`), so handing out results changes them
  by the number of results (`Handed.counts`).
-/
import MinaRust.ParallelScan.Period
import Mathlib.Algebra.BigOperators.Group.List.Basic

namespace MinaRust.ParallelScan

open List Nat Prod

variable {B M : Type} {h k D : ℕ}

def Base.Job.count : Base.Job B → ℚ × ℚ
  | .empty => (0, 0)
  | .full ⟨_, _, .todo⟩ => (1, 0)
  | .full ⟨_, _, .done⟩ => (0, 1)

def Merge.Job.count : Merge.Job M → ℚ × ℚ
  | .empty => (0, 0)
  | .part _ => (1 / 2, 0)
  | .full ⟨_, _, _, .todo⟩ => (1, 0)
  | .full ⟨_, _, _, .done⟩ => (0, 1)

def counts (t : JobTree B M h) : ℚ × ℚ := t.total Base.Job.count Merge.Job.count

theorem counts_node (m : Merge.Job M) (l r : JobTree B M h) :
    counts (.node m l r) = m.count + (counts l + counts r) := rfl

theorem Base.Job.IsTodo.count {b : Base.Job B} (hb : b.IsTodo) : b.count = (1, 0) := by
  obtain ⟨job, n, rfl⟩ := hb; rfl

theorem Base.Job.IsDone.count {b : Base.Job B} (hb : b.IsDone) : b.count = (0, 1) := by
  obtain ⟨job, n, rfl⟩ := hb; rfl

variable {m : Merge.Job M}

theorem Merge.Job.IsTodo.count (hm : m.IsTodo) : m.count = (1, 0) := by
  obtain ⟨a, b, n, rfl⟩ := hm; rfl

theorem Merge.Job.IsDone.count (hm : m.IsDone) : m.count = (0, 1) := by
  obtain ⟨a, b, n, rfl⟩ := hm; rfl

theorem PairJob.count {c : ℕ} (hm : PairJob c m) : m.count = ((c : ℚ) / 2, 0) := by
  rcases hm with ⟨rfl, rfl⟩ | ⟨rfl, a, rfl⟩ | ⟨rfl, hm⟩
  · simp [Merge.Job.count]
  · simp [Merge.Job.count]
  · rw [hm.count]; norm_num

theorem AllDone.counts : ∀ {h : ℕ} {t : JobTree B M h}, AllDone t →
    counts t = (0, (2 : ℚ) ^ (h + 1) - 1) := by
  intro h
  induction h with
  | zero =>
    intro t ht
    cases t with
    | leaf b =>
      refine (Base.Job.IsDone.count ht).trans ?_
      norm_num
  | succ h ih =>
    intro t ht
    cases t with
    | node m l r =>
      obtain ⟨hm, hl, hr⟩ := ht
      rw [counts_node, hm.count, ih hl, ih hr]
      ext
      · simp
      · simp only [snd_add]; ring

theorem Shape.counts {j : ℕ} : ∀ {h c : ℕ} {t : JobTree B M h}, j ≤ h → Shape j c t →
    counts t = ((2 : ℚ) ^ (h - j) - c / 2 - (if j = h then (c : ℚ) / 2 else 0),
      (2 : ℚ) ^ (h + 1) - 2 ^ (h + 1 - j) + c) := by
  intro h
  induction h with
  | zero =>
    intro c t hj ht
    obtain rfl : j = 0 := by omega
    cases t with
    | leaf b =>
      rcases ht with ⟨rfl, hb⟩ | ⟨rfl, hb⟩
      · refine hb.count.trans ?_
        norm_num
      · refine hb.count.trans ?_
        norm_num
  | succ h ih =>
    intro c t hj ht
    cases t with
    | node m l r =>
      rw [counts_node]
      rcases lt_or_ge h j with hlt | hge
      · obtain rfl : j = h + 1 := by omega
        obtain ⟨hl, hr, hm⟩ := (shape_self rfl).1 ht
        have hmc : m.count = (1 - (c : ℚ), (c : ℚ)) := by
          rcases hm with ⟨rfl, hm⟩ | ⟨rfl, hm⟩
          · rw [hm.count]; norm_num
          · rw [hm.count]; norm_num
        rw [hmc, hl.counts, hr.counts, if_pos rfl, Nat.sub_self, show h + 1 + 1 - (h + 1) = 1 by omega]
        ext
        · simp only [fst_add]; ring
        · simp only [snd_add]; ring
      · obtain ⟨hl, hr, hm⟩ := (shape_node hge).1 ht
        have hc : (c : ℚ) = (min c (2 ^ (h - j)) : ℕ) + (c - 2 ^ (h - j) : ℕ) := by
          rw [← cast_add]; congr 1; omega
        have hp₁ : (2 : ℚ) ^ (h + 1 - j) = 2 * 2 ^ (h - j) := by
          rw [show h + 1 - j = h - j + 1 by omega, pow_succ]; ring
        have hp₂ : (2 : ℚ) ^ (h + 1 + 1 - j) = 2 * 2 ^ (h + 1 - j) := by
          rw [show h + 1 + 1 - j = h + 1 - j + 1 by omega, pow_succ]; ring
        rw [ih hge hl, ih hge hr, if_neg (show ¬ j = h + 1 by omega), hp₂, hp₁]
        generalize ((min c (2 ^ (h - j)) : ℕ) : ℚ) = x at hc ⊢
        generalize ((c - 2 ^ (h - j) : ℕ) : ℚ) = y at hc ⊢
        split_ifs at hm ⊢ with hjh
        · subst hjh
          rw [hm.count, Nat.sub_self, hc]
          ext
          · simp only [fst_add]; ring
          · simp only [snd_add]; ring
        · rw [hm, hc, Merge.Job.count]
          ext
          · simp only [fst_add]; ring
          · simp only [snd_add]; ring

theorem Filling.counts : ∀ {h f : ℕ} {t : JobTree B M h}, Filling f t → counts t = ((f : ℚ), 0) := by
  intro h
  induction h with
  | zero =>
    intro f t ht
    cases t with
    | leaf b =>
      rcases ht with ⟨rfl, rfl⟩ | ⟨rfl, hb⟩
      · change ((0 : ℚ), (0 : ℚ)) = _
        norm_num
      · refine hb.count.trans ?_
        norm_num
  | succ h ih =>
    intro f t ht
    cases t with
    | node m l r =>
      obtain ⟨rfl, hl, hr⟩ := ht
      have hf : (f : ℚ) = (min f (2 ^ h) : ℕ) + (f - 2 ^ h : ℕ) := by
        rw [← cast_add]; congr 1; omega
      rw [counts_node, ih hl, ih hr, hf, Merge.Job.count]
      ext <;> simp

/-! ## Handing out results -/

def countsOf (ts : List (ScanTree B M k)) : ℚ × ℚ :=
  (ts.map fun t => counts (jobs t)).sum

@[simp] theorem countsOf_nil : countsOf ([] : List (ScanTree B M k)) = 0 := rfl

@[simp] theorem countsOf_cons (t : ScanTree B M k) (ts : List (ScanTree B M k)) :
    countsOf (t :: ts) = counts (jobs t) + countsOf ts := by
  rw [countsOf, map_cons, sum_cons]; rfl

theorem countsOf_append (ts us : List (ScanTree B M k)) :
    countsOf (ts ++ us) = countsOf ts + countsOf us := by
  rw [countsOf, List.map_append, List.sum_append]; rfl

theorem countsOf_resetMerges (ts : List (ScanTree B M k)) : countsOf (resetMerges ts) = countsOf ts := by
  rw [countsOf, resetMerges, List.map_map, countsOf]
  refine congrArg List.sum (List.map_congr_left fun t _ => ?_)
  exact congrArg counts (jobs_reweigh .merge t)

/-- What `n` results do to the counts; the root's result makes no new job. -/
def answered (n : ℕ) (emits : Prop) [Decidable emits] : ℚ × ℚ :=
  (-(n : ℚ) / 2 - (if emits then 1 / 2 else 0), n)

theorem MergeStep.counts {j c n : ℕ} {js : List M} {t t' : ScanTree B M k}
    (hs : MergeStep j c n js t t') (hj : j ≤ k) (ht : Shape j c (jobs t)) :
    counts (jobs t') = counts (jobs t) +
      (-(js.length : ℚ) / 2 - (if j = k then (js.length : ℚ) / 2 else 0), (js.length : ℚ)) := by
  rw [hs.shape.counts hj, ht.counts hj]
  push_cast
  ext
  · simp only [fst_add]
    split_ifs <;> ring
  · simp only [snd_add]; ring

theorem finishes_iff {i q n : ℕ} (len : ℕ) (hD : 0 < D) (hroot : i % D = D - 1 → i / D < k) :
    (0 < n - (cap k D i - q) ∧ i + 1 + len = (k + 1) * D ∧
        q - cap k D i + (n - (cap k D i - q)) = load k D (i + 1) len) ↔
      0 < n ∧ i + (len + 1) = (k + 1) * D ∧ q + n = load k D i (len + 1) := by
  rw [load]
  constructor
  · rintro ⟨h₁, h₂, h₃⟩
    omega
  · rintro ⟨h₁, h₂, h₃⟩
    have hpos : 0 < n - (cap k D i - q) := by
      by_contra h0
      by_cases hw : i % D = D - 1
      · have hload := load_full (k := k) hD len (i + 1) (by omega)
        have hlt := hroot hw
        rw [succ_div_of_worked hD hw, show k + 1 - (i / D + 1) = k - i / D by omega] at hload
        have htwo : 2 ^ 1 ≤ 2 ^ (k - i / D) := Nat.pow_le_pow_right (by omega) (by omega)
        omega
      · rw [cap_of_other hw] at h0
        omega
    omega

/-- **Handing out results** moves as many jobs from "to be done" to "done", and
    every two results make one new job, except at the root. -/
theorem Handed.counts {n i q : ℕ} {js : List M} {ts ts' : List (ScanTree B M k)}
    (hD : 0 < D) (hs : Handed k D n i q js ts ts') (hb : Busy k D i q ts)
    (hlen : i + ts.length ≤ (k + 1) * D) (hq : q + js.length ≤ load k D i ts.length) :
    countsOf ts' = countsOf ts + answered js.length (0 < js.length ∧
      i + ts.length = (k + 1) * D ∧ q + js.length = load k D i ts.length) := by
  induction hs with
  | @nil i q js =>
    rw [length_nil, load] at hq
    have hjs : js.length = 0 := by omega
    ext <;> simp [answered, hjs]
  | @cons i q js t t' ts ts' step other rest ih =>
    obtain ⟨ht, -, hts⟩ := hb
    rw [length_cons] at hlen hq ⊢
    rw [load] at hq
    have hdiv : i / D ≤ k := div_le_of_lt (by omega)
    have hn : (js.length : ℚ) = (js.take (cap k D i - q)).length + (js.drop (cap k D i - q)).length := by
      rw [← cast_add, ← length_append, take_append_drop]
    rw [countsOf_cons, countsOf_cons, step.counts hdiv ht,
      ih hts (by omega) (by rw [length_drop]; omega), answered, answered]
    by_cases hroot : i % D = D - 1 ∧ i / D = k
    · have hlast := last_of_div_eq hD hroot.1 hroot.2
      obtain rfl : ts = [] := length_eq_zero_iff.1 (by omega)
      have hcap : cap k D i = 1 := by
        rw [cap_of_worked hroot.1 hdiv, hroot.2, Nat.sub_self, pow_zero]
      rw [length_nil, load] at hq
      have hload : load k D i (0 + 1) = 1 := by rw [load, load, hcap]
      have hdrop : (js.drop (cap k D i - q)).length = 0 := by rw [length_drop]; omega
      rw [length_nil, hload, hdrop, if_pos hroot.2, if_neg (by omega)]
      rw [hdrop, cast_zero, add_zero] at hn
      rw [← hn]
      rcases Nat.eq_zero_or_pos js.length with h0 | h0
      · rw [if_neg (by omega), h0]
        ext <;> simp
      · rw [if_pos ⟨h0, hlast, by omega⟩, show js.length = 1 by omega]
        ext
        · simp only [fst_add]; norm_num
        · simp only [snd_add]; norm_num
    · have hroot' : i % D = D - 1 → i / D < k := fun h =>
        lt_of_le_of_ne hdiv fun h' => hroot ⟨h, h'⟩
      have hflag := finishes_iff (n := js.length) (q := q) ts.length hD hroot'
      rw [← length_drop] at hflag
      have hzero : (if i / D = k then ((js.take (cap k D i - q)).length : ℚ) / 2 else 0) = 0 := by
        split_ifs with hk
        · have hw : i % D ≠ D - 1 := fun h => hroot ⟨h, hk⟩
          rw [cap_of_other hw, Nat.zero_sub, take_zero]
          norm_num
        · rfl
      rw [hzero, if_congr hflag rfl rfl, hn]
      ext
      · simp only [fst_add]; ring
      · simp only [snd_add]; ring

end MinaRust.ParallelScan
