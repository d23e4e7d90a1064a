/-
  All jobs to be done.

  `all_jobs` pretends to push new trees and reads one level of every worked tree, `delay + 1`
  times.  This finds every job once, since a tree has jobs to be done only at the height of
  its position and, when it is worked on, one above.
-/
import MinaRust.ParallelScan.Invariant
import Mathlib.Algebra.BigOperators.Intervals

namespace MinaRust

open ParallelScan List Finset Nat Multiset

def ParallelScan.todoJobs {B M : Type} (s : ParallelScan B M) : List (AvailableJob B M) :=
  s.trees.flatMap fun t => t.values.flatMap fun v => v.elim (fun b => b.job.todo) fun m => m.job.todo

namespace ParallelScan

variable {B M : Type} {h k D : ℕ}

/-! ## The jobs of a tree -/

def todoBag (t : JobTree B M h) : Multiset (AvailableJob B M) :=
  t.total (fun b => (b.todo : List (AvailableJob B M))) fun m => (m.todo : List (AvailableJob B M))

theorem coe_flatMap {α β : Type} (f : α → List β) : ∀ xs : List α,
    ((xs.flatMap f : List β) : Multiset β) = (xs.map fun x => (f x : Multiset β)).sum
  | [] => rfl
  | x :: xs => by
    rw [List.flatMap_cons, ← Multiset.coe_add, coe_flatMap f xs, List.map_cons, List.sum_cons]

theorem todoBag_flat (t : ScanTree B M h) :
    (((flat t).values.flatMap fun v => v.elim (fun b => b.job.todo) fun m => m.job.todo :
      List (AvailableJob B M)) : Multiset (AvailableJob B M)) = todoBag (jobs t) := by
  have hmap := PTree.bfs_map (fun v : Value (Base B) (Merge M) =>
    ((v.elim (fun b => b.job.todo) fun m => m.job.todo : List (AvailableJob B M)) :
      Multiset (AvailableJob B M))) (fun _ => Value.leaf) (fun _ => Value.node) (d := 0) [t]
  rw [coe_flatMap, todoBag, jobs, PTree.total_map]
  refine (congrArg List.sum hmap).trans ((PTree.sum_bfs _ _ [t]).trans ?_)
  rw [List.map_singleton, List.sum_singleton]
  rfl

theorem todoBag_eq_sum : ∀ {h : ℕ} (t : JobTree B M h),
    todoBag t = ∑ j ∈ Finset.range (h + 1), (todoAt j t : Multiset (AvailableJob B M)) := by
  intro h
  induction h with
  | zero => intro t; cases t; simp [todoBag, PTree.total]
  | succ h ih =>
    intro t
    cases t with
    | node m l r =>
      have hsplit : ∀ j ∈ Finset.range (h + 1),
          ((todoAt j (.node m l r : JobTree B M (h + 1)) : List (AvailableJob B M)) :
            Multiset (AvailableJob B M)) = ↑(todoAt j l) + ↑(todoAt j r) := by
        intro j hj
        rw [todoAt_node (by rw [Finset.mem_range] at hj; omega), ← Multiset.coe_add]
      rw [Finset.sum_range_succ, Finset.sum_congr rfl hsplit, Finset.sum_add_distrib, ← ih, ← ih,
        todoAt_self]
      exact add_comm _ _

theorem Shape.todoBag {j c : ℕ} {t : JobTree B M h} (hj : j ≤ h) (ht : Shape j c t) :
    todoBag t = ↑(todoAt j t) + (todoAt (j + 1) t : Multiset (AvailableJob B M)) := by
  rw [todoBag_eq_sum]
  refine sum_eq_add j (j + 1) (by omega) ?_ ?_ ?_
  · rintro i - ⟨h₁, h₂⟩
    rw [ht.todoAt_other hj h₁ h₂]; rfl
  · intro hn
    rw [Finset.mem_range] at hn; omega
  · intro hn
    rw [Finset.mem_range] at hn
    rw [todoAt_of_gt (by omega)]; rfl

theorem Shape.todoAt_succ_nil {j : ℕ} {t : JobTree B M h} (ht : Shape j 0 t) : todoAt (j + 1) t = [] := by
  rcases lt_or_ge j h with hlt | hge
  · exact List.length_eq_zero_iff.1 (ht.length_todoAt_succ hlt (Nat.zero_le _))
  · exact todoAt_of_gt (by omega) t

theorem Filling.todoBag {f : ℕ} {t : JobTree B M h} (ht : Filling f t) :
    todoBag t = (todoAt 0 t : Multiset (AvailableJob B M)) := by
  rw [todoBag_eq_sum]
  refine sum_eq_single 0 ?_ ?_
  · intro i _ hi
    rw [ht.todoAt_other hi]; rfl
  · intro hn
    rw [Finset.mem_range] at hn; omega

/-! ## The jobs of the older trees -/

/-- A tree has jobs to be done at the height of its position and, when it is
    worked on, one above. -/
def Placed (D i : ℕ) (t : JobTree B M h) : Prop :=
  todoBag t = ↑(todoAt (i / D) t) +
    if i % D = D - 1 then (todoAt (i / D + 1) t : Multiset (AvailableJob B M)) else 0

def PlacedFrom (D : ℕ) : ℕ → List (ScanTree B M k) → Prop
  | _, [] => True
  | i, t :: ts => Placed D i (jobs t) ∧ PlacedFrom D (i + 1) ts

theorem Shape.placed_other {i : ℕ} {t : JobTree B M k} (hk : i / D ≤ k) (ht : Shape (i / D) 0 t)
    (hw : i % D ≠ D - 1) : Placed D i t := by
  rw [Placed, ht.todoBag hk, ht.todoAt_succ_nil, if_neg hw]
  rfl

theorem Busy.placed : ∀ {ts : List (ScanTree B M k)} {i q : ℕ}, Busy k D i q ts →
    i + ts.length ≤ (k + 1) * D → PlacedFrom D i ts
  | [], _, _, _, _ => trivial
  | t :: ts, i, q, ⟨ht, _, hts⟩, hlen => by
    rw [length_cons] at hlen
    have hdiv : i / D ≤ k := div_le_of_lt (by omega)
    refine ⟨?_, placed hts (by omega)⟩
    by_cases hw : i % D = D - 1
    · rw [Placed, ht.todoBag hdiv, if_pos hw]
    · rw [cap_of_other hw, Nat.min_zero] at ht
      exact ht.placed_other hdiv hw

theorem Busy.placed_idle (hD : 0 < D) : ∀ {ts : List (ScanTree B M k)} {i : ℕ},
    Busy k D (i + 1) 0 ts → i + ts.length < (k + 1) * D → PlacedFrom D i ts
  | [], _, _, _ => trivial
  | t :: ts, i, ⟨ht, _, hts⟩, hlen => by
    rw [length_cons] at hlen
    rw [zero_min] at ht
    rw [Nat.zero_sub] at hts
    have hdiv : (i + 1) / D ≤ k := div_le_of_lt (by omega)
    refine ⟨?_, placed_idle hD hts (by omega)⟩
    by_cases hw : i % D = D - 1
    · rw [succ_div_of_worked hD hw] at ht hdiv
      rw [Placed, ht.todoBag hdiv, ht.todoAt_succ_nil, if_pos hw,
        ht.todoAt_other hdiv (show i / D ≠ i / D + 1 by omega) (by omega), add_comm]
    · rw [succ_div_of_other hD hw] at ht hdiv
      exact ht.placed_other hdiv hw

/-- Over `D + 1` shifts, a position is worked on once at its height, and once more
    one above if it is worked on unshifted. -/
theorem sum_shifts {A : Type} [AddCommMonoid A] (hD : 0 < D) (i : ℕ) (F : ℕ → A) :
    ∑ p ∈ Finset.range (D + 1), (if (i + p) % D = D - 1 then F ((i + p) / D) else 0) =
      F (i / D) + if i % D = D - 1 then F (i / D + 1) else 0 := by
  have hmod := Nat.mod_lt i hD
  have hdm := Nat.div_add_mod i D
  rw [Finset.sum_range_succ]
  congr 1
  · -- within one round the shift is determined by the residue
    rw [sum_eq_single (D - 1 - i % D)]
    · have he : i + (D - 1 - i % D) = D * (i / D) + (D - 1) := by omega
      have hlt : D - 1 < D := by omega
      rw [he, mul_add_mod, Nat.mod_eq_of_lt hlt, if_pos rfl, mul_add_div hD, Nat.div_eq_of_lt hlt, add_zero]
    · intro p hp hne
      rw [Finset.mem_range] at hp
      refine if_neg fun h => hne ?_
      have he : i + p = D * (i / D) + (i % D + p) := by omega
      rw [he, mul_add_mod] at h
      rcases lt_or_ge (i % D + p) D with hlt | hge
      · rw [Nat.mod_eq_of_lt hlt] at h; omega
      · rw [mod_eq_sub_mod hge, Nat.mod_eq_of_lt (by omega)] at h; omega
    · intro hn
      rw [Finset.mem_range] at hn; omega
  · rw [add_mod_right, add_div_right _ hD]

theorem sum_workFrom (hD : 0 < D) : ∀ {ts : List (ScanTree B M k)} {i : ℕ}, PlacedFrom D i ts →
    ∑ p ∈ Finset.range (D + 1), (workFrom k D (i + p) ts : Multiset (AvailableJob B M)) =
      (ts.map fun t => todoBag (jobs t)).sum
  | [], i, _ => by simp [workFrom]
  | t :: ts, i, ⟨ht, hts⟩ => by
    have ih := sum_workFrom hD hts
    rw [Placed, ← sum_shifts hD i fun j =>
      (todoAt j (jobs t) : Multiset (AvailableJob B M))] at ht
    rw [List.map_cons, List.sum_cons, ht, ← ih, ← Finset.sum_add_distrib]
    refine Finset.sum_congr rfl fun p _ => ?_
    rw [workFrom, ← Multiset.coe_add, show i + p + 1 = i + 1 + p by omega]
    congr 1
    by_cases hw : (i + p) % D = D - 1
    · rw [if_pos hw]
      rcases lt_or_ge k ((i + p) / D) with hlt | hge
      · rw [if_neg (by omega), todoAt_of_gt hlt]
      · rw [if_pos ⟨hw, hge⟩]
    · rw [if_neg (fun h => hw h.1), if_neg hw]; rfl

/-! ## `all_jobs` -/

theorem workFrom_emptyTree (us : List (ScanTree B M k)) : ∀ n i : ℕ,
    workFrom k D i (List.replicate n (emptyTree k) ++ us) = workFrom k D (i + n) us
  | 0, i => rfl
  | n + 1, i => by
    have hnil : ∀ j, todoAt j (jobs (emptyTree k : ScanTree B M k)) = [] := by
      intro j
      have hf := filling_emptyTree (B := B) (M := M) k
      rcases Nat.eq_zero_or_pos j with rfl | hj
      · rw [hf.todoAt_zero, length_eq_zero_iff.1 (hf.length_leafData (Nat.zero_le _))]; rfl
      · exact hf.todoAt_other (by omega)
    rw [List.replicate_succ, List.cons_append, workFrom, workFrom_emptyTree us n (i + 1), hnil,
      ite_self, List.nil_append, show i + 1 + n = i + (n + 1) by omega]

theorem allWorkLoop_flatten (hD : 0 < D) : ∀ (n : ℕ) (us : List (ScanTree B M k))
    {s : ParallelScan B M}, s.trees = us.map flat → s.maxBaseJobs = 2 ^ k →
    s.delay + 1 = D → (((allWorkLoop k n s).flatten : List (AvailableJob B M)) :
      Multiset (AvailableJob B M)) = ∑ p ∈ Finset.range n, (workFrom k D p us : Multiset (AvailableJob B M))
  | 0, _, _, _, _, _ => rfl
  | n + 1, us, s, htrees, hmax, hdelay => by
    set s' : ParallelScan B M := { s with currTree := Tree.createTree k, olderTrees := s.trees }
      with hs'
    have hwork : s'.workForTree .current = workFrom k D 0 us := by
      rw [← work_flat hD, ← htrees, ← hmax, ← hdelay]
      rfl
    have ih := allWorkLoop_flatten hD n (emptyTree k :: us) (s := s')
      (by rw [trees, hs', createTree_eq, htrees]; rfl) hmax hdelay
    have hloop : (allWorkLoop k (n + 1) s).flatten = workFrom k D 0 us ++ (allWorkLoop k n s').flatten := by
      rw [allWorkLoop, ← hs', hwork]
      split_ifs with h
      · rw [List.isEmpty_iff.1 h]; rfl
      · rfl
    have hshift : ∀ p, workFrom k D p (emptyTree k :: us) = workFrom k D (p + 1) us :=
      fun p => workFrom_emptyTree us 1 p
    rw [hloop, ← Multiset.coe_add, ih, Finset.sum_range_succ', add_comm]
    congr 1
    exact Finset.sum_congr rfl fun p _ => by rw [hshift]

section
variable {s : ParallelScan B M} {f q : ℕ} {t : ScanTree B M k}
  {ts : List (ScanTree B M k)}

theorem Represents.trees_eq (hs : Represents s D t ts) : s.trees = (t :: ts).map flat := by
  rw [trees, hs.curr, hs.older]; rfl

theorem Running.allJobs_perm (hr : Running s D f q t ts) : s.allJobs.flatten.Perm s.todoJobs := by
  have hD := hr.rep.pos
  have hplaced : PlacedFrom D 0 ts := by
    rcases lt_or_eq_of_le hr.period.le with hlt | heq
    · exact (hr.period.busy hlt).placed (by rw [zero_add]; exact hr.period.length)
    · obtain ⟨hlen, hidle⟩ := hr.period.idle heq
      exact hidle.placed_idle hD (by omega)
  have hsum := sum_workFrom hD hplaced
  -- the current tree is reached by the last shift only
  have hcurr : ∑ p ∈ Finset.range D, (workFrom k D p (t :: ts) : Multiset (AvailableJob B M)) =
      ↑(todoAt 0 (jobs t)) +
        ∑ p ∈ Finset.range D, (workFrom k D (p + 1) ts : Multiset (AvailableJob B M)) := by
    have hsplit : ∀ p ∈ Finset.range D, (workFrom k D p (t :: ts) : Multiset (AvailableJob B M)) =
          (if p = D - 1 then ↑(todoAt 0 (jobs t)) else 0) + ↑(workFrom k D (p + 1) ts) := by
      intro p hp
      rw [Finset.mem_range] at hp
      rw [workFrom, ← Multiset.coe_add, Nat.mod_eq_of_lt hp, Nat.div_eq_of_lt hp]
      congr 1
      split_ifs with h₁ h₂ h₂
      · rfl
      · omega
      · omega
      · rfl
    rw [Finset.sum_congr rfl hsplit, Finset.sum_add_distrib, sum_ite_eq' _ (D - 1),
      if_pos (by rw [Finset.mem_range]; omega)]
  rw [← Multiset.coe_eq_coe, allJobs, allWork, hr.rep.maxBaseJobs, ceilLog2_two_pow, List.flatten_cons, ← Multiset.coe_add, hr.rep.work,
    hr.rep.delay, allWorkLoop_flatten hD D (t :: ts) hr.rep.trees_eq hr.rep.maxBaseJobs hr.rep.delay, hcurr,
    todoJobs, coe_flatMap, hr.rep.trees_eq, List.map_map, List.map_cons, List.sum_cons]
  simp only [Function.comp_def, todoBag_flat]
  rw [← hsum, hr.filling.todoBag, Finset.sum_range_succ']
  simp only [zero_add]
  abel

end

end ParallelScan

end MinaRust
