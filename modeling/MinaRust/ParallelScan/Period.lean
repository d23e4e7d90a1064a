/-
  Handing results to the trees of a period (`add_merge_jobs`).

  The tree at position `i` takes the next results, up to its `cap i`, and the rest goes on to
  the older trees (`Handed`).
-/
import MinaRust.ParallelScan.Plan

namespace MinaRust.ParallelScan

open List Nat

variable {B M : Type} {k D : ℕ}

theorem MergeStep.refl {h j c n : ℕ} {t : ScanTree B M h} (ht : Shape j c (jobs t))
    (hw : Weighted j c t) : MergeStep j c n [] t t :=
  ⟨ht, hw, rfl, fun _ _ h => h, fun _ _ _ h _ => h⟩

/-- The results `js` have been handed to the trees from position `i` on, after
    `q` other results of the period. -/
inductive Handed (k D n : ℕ) : ℕ → ℕ → List M → List (ScanTree B M k) → List (ScanTree B M k) → Prop
  | nil {i q : ℕ} {js : List M} : Handed k D n i q js [] []
  | cons {i q : ℕ} {js : List M} {t t' : ScanTree B M k}
      {ts ts' : List (ScanTree B M k)}
      (step : MergeStep (i / D) (min q (cap k D i)) n (js.take (cap k D i - q)) t t')
      (other : i % D ≠ D - 1 → t' = t)
      (rest : Handed k D n (i + 1) (q - cap k D i) (js.drop (cap k D i - q)) ts ts') :
      Handed k D n i q js (t :: ts) (t' :: ts')

namespace Handed

theorem refl {n : ℕ} : ∀ {ts : List (ScanTree B M k)} {i q : ℕ}, Busy k D i q ts → Handed k D n i q [] ts ts
  | [], _, _, _ => .nil
  | _ :: _, _, _, ⟨ht, hw, hts⟩ => by
    refine .cons ?_ (fun _ => rfl) ?_
    · rw [take_nil]; exact .refl ht hw
    · rw [drop_nil]; exact refl hts

variable {n i q : ℕ} {js : List M} {ts ts' : List (ScanTree B M k)}

theorem length_eq (hs : Handed k D n i q js ts ts') : ts'.length = ts.length := by
  induction hs with
  | nil => rfl
  | cons _ _ _ ih => rw [length_cons, length_cons, ih]

theorem busy (hs : Handed k D n i q js ts ts') : Busy k D i (q + js.length) ts' := by
  induction hs with
  | nil => trivial
  | @cons i q js t t' ts ts' step _ _ ih =>
    have hshape := step.shape
    have hweighted := step.weighted
    have hc : min q (cap k D i) + (js.take (cap k D i - q)).length = min (q + js.length) (cap k D i) := by
      rw [length_take]; omega
    rw [hc] at hshape hweighted
    refine ⟨hshape, hweighted, ?_⟩
    rw [length_drop] at ih
    rwa [show q + js.length - cap k D i = q - cap k D i + (js.length - (cap k D i - q)) by omega]

theorem entries (hs : Handed k D n i q js ts ts') :
    ts'.map (fun t => leafEntries (jobs t)) = ts.map (fun t => leafEntries (jobs t)) := by
  induction hs with
  | nil => rfl
  | cons step _ _ ih => rw [map_cons, map_cons, ih, step.entries]

theorem workFrom_next (hs : Handed k D n i q js ts ts') (hD : 2 ≤ D) :
    workFrom k D (i + 1) ts' = workFrom k D (i + 1) ts := by
  induction hs with
  | nil => rfl
  | @cons i q js t t' ts ts' _ other _ ih =>
    rw [workFrom, workFrom, ih]
    split_ifs with hw
    · rw [other]
      intro h
      have := succ_mod_of_worked (by omega) h
      omega
    · rfl

theorem values (hs : Handed k D n i q js ts ts') {val : B → M} {op : M → M → M}
    (hop : ∀ a b c, op (op a b) c = op a (op b c)) (hb : Busy k D i q ts) (hlen : i + ts.length ≤ (k + 1) * D)
    (hv : ∀ t ∈ ts, Values val op (jobs t)) (hjs : js <+: (workFrom k D i ts).map (honest val op)) :
    ∀ t ∈ ts', Values val op (jobs t) := by
  induction hs with
  | nil => exact hv
  | @cons i q js t t' ts ts' step other _ ih =>
    obtain ⟨ht, -, hts⟩ := hb
    rw [length_cons] at hlen
    rw [forall_mem_cons] at hv ⊢
    have hk : i / D ≤ k := div_le_of_lt (by omega)
    rw [workFrom, map_append] at hjs
    by_cases hw : i % D = D - 1
    · rw [if_pos ⟨hw, hk⟩] at hjs
      obtain ⟨h₁, h₂⟩ := slices_of_isPrefix hjs
      rw [cap_of_worked hw hk] at ht
      rw [length_map, ht.length_todoAt hk (min_le_right ..),
        show 2 ^ (k - i / D) - min q (2 ^ (k - i / D)) = 2 ^ (k - i / D) - q by omega,
        ← cap_of_worked hw hk] at h₁ h₂
      exact ⟨step.values val op hop hv.1 h₁, ih hts (by omega) hv.2 h₂⟩
    · rw [if_neg fun h => hw h.1, map_nil, nil_append] at hjs
      rw [other hw]
      refine ⟨hv.1, ih hts (by omega) hv.2 ?_⟩
      rwa [cap_of_other hw, Nat.zero_sub, drop_zero]

theorem seq (hs : Handed k D n i q js ts ts') {P : ℕ → List (B × ℕ) → Prop}
    (hP : ∀ t ∈ ts, SeqAll (P · (leafEntries (jobs t))) (jobs t)) (hn : ∀ t ∈ ts, P n (leafEntries (jobs t))) :
    ∀ t ∈ ts', SeqAll (P · (leafEntries (jobs t))) (jobs t) := by
  induction hs with
  | nil => exact hP
  | cons step _ _ ih =>
    rw [forall_mem_cons] at hP hn ⊢
    refine ⟨?_, ih hP.2 hn.2⟩
    rw [step.entries]
    exact step.seq _ hn.1 hP.1

end Handed

/-! ## The loop -/

theorem updateTreesLoop_nil (n : ℕ) : ∀ (ts : List (Tree (Base B) (Merge M))) (i : ℕ)
    (res : Option M) (stats : Stats),
    updateTreesLoop D k n i [] res stats ts = .ok (ts, res, stats)
  | [], _, _, _ => rfl
  | t :: ts, i, res, stats => by
    rw [updateTreesLoop, if_neg (fun h => h.2 rfl), updateTreesLoop_nil n ts]
    rfl

/-- The result of the loop: the root of the last tree, if that is finished. -/
def loopResult (k D i q : ℕ) (js : List M) (res : Option M) (len : ℕ) : Option M :=
  if js.isEmpty then res
  else if i + len = (k + 1) * D ∧ q + js.length = load k D i len then js.getLast? else none

/-- A position of the loop's statistics is in range, and the level is the root
    only for the last tree, when that is finished. -/
def StatsOk (k D i q len : ℕ) (js : List M) (stats : Stats) : Prop :=
  ∀ e ∈ stats, e.1 < i + len ∧ (e.2.1 = 0 →
    i + len = (k + 1) * D ∧ q + js.length = load k D i len ∧ e.1 + 1 = i + len)

theorem last_of_div_eq {i : ℕ} (hD : 0 < D) (hw : i % D = D - 1) (hk : i / D = k) : i + 1 = (k + 1) * D := by
  have hdm := div_add_mod i D
  rw [hk, hw] at hdm
  rw [add_mul, mul_comm]
  omega

theorem updateTreesLoop_flat (hk : 0 < k) (hD : 0 < D) (n : ℕ) :
    ∀ {ts : List (ScanTree B M k)} {i q : ℕ} (js : List M) (res : Option M)
      (stats : Stats), Busy k D i q ts → i + ts.length ≤ (k + 1) * D →
      q + js.length ≤ load k D i ts.length → (∀ e ∈ stats, e.1 < i) →
      ∃ ts' stats', updateTreesLoop D k n i (js.map .merge) res stats (ts.map flat) =
          .ok (ts'.map flat, loopResult k D i q js res ts.length, stats ++ stats') ∧
        Handed k D n i q js ts ts' ∧ StatsOk k D i q ts.length js stats' := by
  intro ts
  induction ts with
  | nil =>
    intro i q js res stats _ _ hq _
    rw [length_nil, load] at hq
    obtain rfl : js = [] := length_eq_zero_iff.1 (by omega)
    exact ⟨[], [], by simp [updateTreesLoop, loopResult], .nil, by simp [StatsOk]⟩
  | cons t ts ih =>
    intro i q js res stats hb hlen hq hstats
    by_cases hjs : js = []
    · subst hjs
      refine ⟨t :: ts, [], ?_, .refl hb, by simp [StatsOk]⟩
      rw [map_nil, updateTreesLoop_nil, append_nil]
      rfl
    obtain ⟨ht, hw, hts⟩ := hb
    rw [length_cons] at hlen hq
    rw [load] at hq
    have hjs' : js.map (Job.merge (B := B)) ≠ [] := by simpa using hjs
    have hpos : 0 < js.length := length_pos_iff.2 hjs
    have hresult : loopResult k D i q js res (ts.length + 1) =
        if i + (ts.length + 1) = (k + 1) * D ∧
          q + js.length = cap k D i + load k D (i + 1) ts.length then js.getLast? else none := by
      rw [loopResult, if_neg (by simpa using hjs), load]
    have hdiv : i / D ≤ k := div_le_of_lt (by omega)
    by_cases hi : i % D = D - 1
    · have hcap := cap_of_worked hi hdiv
      -- at the root nothing has been done before
      have hroot : i / D = k → ts = [] ∧ q = 0 ∧ cap k D i = 1 := by
        intro hik
        have hlast := last_of_div_eq hD hi hik
        obtain rfl : ts = [] := length_eq_zero_iff.1 (by omega)
        rw [length_nil, load] at hq
        rw [hik, Nat.sub_self] at hcap
        exact ⟨rfl, by omega, hcap⟩
      have hrequired : (flat t).requiredJobCount = cap k D i - q := by
        rw [requiredJobCount_flat, hw.mergeWeight_eq hdiv (by rw [hcap]; exact min_le_right ..)
          (fun h => by rw [(hroot h).2.1, zero_min])]
        omega
      have hlen' : (js.take (cap k D i - q)).length = min (cap k D i - q) js.length :=
        length_take ..
      obtain ⟨t', hup, step⟩ := update_merge hk hdiv (js.take (cap k D i - q)) ht hw
        (by rw [hlen']; omega)
      set r' := if i / D = k then (js.take (cap k D i - q)).head? else none with hr'
      obtain ⟨ts', stats', hloop, hand, hst⟩ := ih
        (js.drop (cap k D i - q)) r'
        (stats ++ [(i, k - i / D, (js.take (cap k D i - q)).length)]) hts (by omega)
        (by rw [length_drop]; omega)
        (by
          intro e he
          rw [mem_append, mem_singleton] at he
          rcases he with he | rfl
          · exact lt_succ_of_lt (hstats e he)
          · exact lt_succ_self i)
      refine ⟨t' :: ts', (i, k - i / D, (js.take (cap k D i - q)).length) :: stats', ?_,
        .cons step (fun h => absurd hi h) hand, ?_⟩
      · rw [map_cons, updateTreesLoop, if_pos ⟨hi, hjs'⟩, hrequired]
        dsimp only
        rw [← map_take, ← map_drop, checkedSub_of_le hdiv, ok_bind,
          ensure_of (fun e he => Nat.ne_of_lt (hstats e he)), ok_bind, hup, ok_bind,
          length_map, hloop, length_cons, hresult]
        have hres : loopResult k D (i + 1) (q - cap k D i) (js.drop (cap k D i - q)) r' ts.length =
            if i + (ts.length + 1) = (k + 1) * D ∧
              q + js.length = cap k D i + load k D (i + 1) ts.length then js.getLast? else none := by
          unfold loopResult
          rcases lt_or_ge (cap k D i - q) js.length with hlt | hge
          · rw [if_neg (by rw [List.isEmpty_iff, drop_eq_nil_iff]; omega), length_drop,
              List.getLast?_drop, if_neg (show ¬ js.length ≤ cap k D i - q by omega)]
            refine if_congr ?_ rfl rfl
            omega
          · rw [if_pos (by rw [List.isEmpty_iff, drop_eq_nil_iff]; omega), hr']
            by_cases hik : i / D = k
            · obtain ⟨rfl, rfl, hc⟩ := hroot hik
              have hone : js.length = 1 := by omega
              obtain ⟨a, rfl⟩ := length_eq_one_iff.1 hone
              have hlast := last_of_div_eq hD hi hik
              rw [if_pos hik, if_pos ⟨hlast, by rw [hc]; rfl⟩, hc]
              rfl
            · rw [if_neg hik, if_neg]
              rintro ⟨hfull, hall⟩
              have := load_full (k := k) hD ts.length (i + 1) (by omega)
              rw [succ_div_of_worked hD hi, show k + 1 - (i / D + 1) = k - i / D by omega] at this
              have htwo : 2 ^ 1 ≤ 2 ^ (k - i / D) := Nat.pow_le_pow_right (by omega) (by omega)
              omega
        rw [hres, append_assoc]
        rfl
      · intro e he
        rw [length_cons]
        rcases mem_cons.1 he with rfl | he
        · refine ⟨by dsimp only; omega, fun h0 => ?_⟩
          have hik : i / D = k := by dsimp only at h0; omega
          obtain ⟨rfl, rfl, hc⟩ := hroot hik
          have hlast := last_of_div_eq hD hi hik
          rw [length_nil, load] at hq
          rw [length_nil, load, load]
          omega
        · obtain ⟨h₁, h₂⟩ := hst e he
          refine ⟨by omega, fun h0 => ?_⟩
          obtain ⟨h₃, h₄, h₅⟩ := h₂ h0
          rw [length_drop] at h₄
          refine ⟨by omega, ?_, by omega⟩
          rw [load]
          -- the rest of the results is not empty, since the last tree takes one
          rcases lt_or_ge (cap k D i - q) js.length with hlt | hge
          · omega
          · by_cases hik : i / D = k
            · obtain ⟨rfl, rfl, hc⟩ := hroot hik
              rw [length_nil, load]; omega
            have := load_full hD ts.length (i + 1) (by omega)
            rw [succ_div_of_worked hD hi, show k + 1 - (i / D + 1) = k - i / D by omega] at this
            omega
    · have hcap : cap k D i = 0 := cap_of_other hi
      rw [hcap] at hts
      obtain ⟨ts', stats', hloop, hand, hst⟩ := ih (q := q) js res stats hts
        (by omega) (by omega) (fun e he => lt_succ_of_lt (hstats e he))
      refine ⟨t :: ts', stats', ?_, .cons ?_ (fun _ => rfl) ?_, ?_⟩
      · rw [map_cons, updateTreesLoop, if_neg (fun h => hi h.1), hloop, ok_bind,
          length_cons, hresult, loopResult, if_neg (by simpa using hjs)]
        simp only [map_cons]
        rw [show i + 1 + ts.length = i + (ts.length + 1) by omega, hcap, zero_add]
      · rw [hcap, Nat.zero_sub]
        rw [hcap] at ht hw
        exact .refl ht hw
      · rwa [hcap, Nat.zero_sub, drop_zero]
      · intro e he
        obtain ⟨h₁, h₂⟩ := hst e he
        rw [length_cons, load]
        refine ⟨by omega, fun h0 => ?_⟩
        exact ⟨by omega, by omega, by omega⟩

theorem logStats_ok {ntrees : ℕ} {emitted : Bool} : ∀ {stats : Stats},
    (∀ e ∈ stats, e.1 + 2 ≤ ntrees ∧ (e.2.1 = 0 → emitted = true ∧ ntrees = e.1 + 2)) →
    logStats ntrees emitted stats = .ok ()
  | [], _ => rfl
  | (index, level, c) :: stats, h => by
    rw [forall_mem_cons] at h
    obtain ⟨⟨h₁, h₂⟩, h₃⟩ := h
    have ih := logStats_ok h₃
    dsimp only at h₁ h₂
    rw [logStats, checkedSub_of_le (show index ≤ ntrees by omega), ok_bind,
      checkedSub_of_le (show 2 ≤ ntrees - index by omega), ok_bind]
    split_ifs with hlast
    · exact ih
    · have hlevel : 1 ≤ level := by
        by_contra h0
        obtain ⟨he, hn⟩ := h₂ (by omega)
        exact hlast ⟨he, by omega⟩
      rw [checkedSub_of_le hlevel]
      exact ih

/-! ## Periods of a scan -/

/-- The older trees of a scan, `q` results into a period; `q` is the whole work
    between two periods. -/
structure Period (k D q : ℕ) (ts : List (ScanTree B M k)) : Prop where
  length : ts.length ≤ (k + 1) * D
  le : q ≤ load k D 0 ts.length
  busy : q < load k D 0 ts.length → Busy k D 0 q ts
  idle : q = load k D 0 ts.length → ts.length < (k + 1) * D ∧ Busy k D 1 0 ts

structure Represents (s : ParallelScan B M) (D : ℕ) (t : ScanTree B M k)
    (ts : List (ScanTree B M k)) : Prop where
  curr : s.currTree = flat t
  older : s.olderTrees = ts.map flat
  maxBaseJobs : s.maxBaseJobs = 2 ^ k
  delay : s.delay + 1 = D

section
variable {s : ParallelScan B M} {t : ScanTree B M k}
  {ts : List (ScanTree B M k)} {q : ℕ}

theorem Period.length_workFrom (hD : 0 < D) (hp : Period k D q ts) :
    (workFrom k D 0 ts).length = load k D 0 ts.length - q := by
  rcases lt_or_eq_of_le hp.le with hlt | heq
  · exact (hp.busy hlt).length_workFrom
  · obtain ⟨hlen, hidle⟩ := hp.idle heq
    rw [hidle.workFrom_idle hD (by omega), heq, Nat.sub_self]
    rfl

theorem Represents.pos (hs : Represents s D t ts) : 0 < D := by
  have := hs.delay; omega

theorem Represents.work (hs : Represents s D t ts) : s.workForTree .current = workFrom k D 0 ts := by
  rw [workForTree, hs.older, hs.maxBaseJobs, hs.delay, work_flat hs.pos]

theorem Represents.work_next (hs : Represents s D t ts) : s.workForTree .next = workFrom k D 0 (t :: ts) := by
  rw [workForTree, trees, hs.curr, hs.older, hs.maxBaseJobs, hs.delay, ← work_flat hs.pos]
  rfl

theorem Represents.maxTrees (hs : Represents s D t ts) : s.maxTrees = (k + 1) * D + 1 := by
  rw [ParallelScan.maxTrees, hs.maxBaseJobs, ceilLog2_two_pow, hs.delay]

theorem mapM_resetWeights (ts : List (ScanTree B M k)) :
    ((ts.map flat).mapM fun tree => tree.resetWeights .merge) = .ok ((resetMerges ts).map flat) := by
  rw [mapM_map, resetMerges, map_map]
  exact mapM_eq_ok fun t _ => resetWeights_flat .merge t

theorem emitResult_none (ncompleted nrequired : ℕ) (ts' : List (ScanTree B M k)) :
    s.emitResult ncompleted nrequired (ts'.map flat) none = .ok ({ s with
      olderTrees := if ts'.length + 1 < s.maxTrees ∧ ncompleted = nrequired then
        (resetMerges ts').map flat else ts'.map flat }, none) := by
  unfold emitResult
  simp only [Option.isSome_none, Bool.false_eq_true, false_or, length_map]
  split_ifs
  · rw [mapM_resetWeights]; rfl
  · rfl

theorem emitResult_some (ncompleted nrequired : ℕ) (init : List (ScanTree B M k))
    (last : ScanTree B M k) (v : M) :
    s.emitResult ncompleted nrequired ((init ++ [last]).map flat) (some v) =
      .ok ({ s with olderTrees := (resetMerges init).map flat }, some (v, leafData (jobs last))) := by
  unfold emitResult
  rw [map_append, map_singleton, List.getLast?_append, dropLast_concat]
  simp only [List.getLast?_singleton, Option.some_or, Option.isSome_some, true_or, if_true]
  rw [mapM_resetWeights, ok_bind, baseJobs_flat]

theorem addMergeJobs_eq (hk : 0 < k) (hs : Represents s D t ts) (hp : Period k D q ts)
    {js : List M} (hne : js ≠ []) (hjs : q + js.length ≤ load k D 0 ts.length) :
    ∃ ts', Handed k D s.currJobSeqNo 0 q js ts ts' ∧ s.addMergeJobs js =
      s.emitResult js.length (load k D 0 ts.length - q) (ts'.map flat)
        (if ts.length = (k + 1) * D ∧ q + js.length = load k D 0 ts.length then js.getLast?
          else none) := by
  have hD := hs.pos
  have hpos : 0 < js.length := length_pos_iff.2 hne
  obtain ⟨ts', stats, hloop, hand, hst⟩ := updateTreesLoop_flat hk hD s.currJobSeqNo js
    none [] (hp.busy (by omega)) (by rw [zero_add]; exact hp.length) hjs (by simp)
  rw [loopResult, if_neg (by simpa using hne), zero_add, nil_append] at hloop
  have hrequired : (s.workForTree .current).length = load k D 0 ts.length - q := by
    rw [hs.work, hp.length_workFrom hD]
  have htrees : s.trees.length = ts.length + 1 := by
    rw [trees, hs.older, length_cons, length_map]
  have hlog : logStats s.trees.length (if ts.length = (k + 1) * D ∧
      q + js.length = load k D 0 ts.length then js.getLast? else none).isSome stats.reverse = .ok () := by
    refine logStats_ok fun e he => ?_
    obtain ⟨h₁, h₂⟩ := hst e (mem_reverse.1 he)
    refine ⟨by omega, fun h0 => ?_⟩
    obtain ⟨h₃, h₄, h₅⟩ := h₂ h0
    rw [if_pos ⟨by omega, h₄⟩, List.getLast?_eq_some_getLast hne]
    exact ⟨rfl, by omega⟩
  refine ⟨ts', hand, ?_⟩
  unfold addMergeJobs
  rw [if_neg (by simpa using hne)]
  dsimp only
  rw [ensure_of (by rw [length_map]; omega), ok_bind, hs.delay, hs.older,
    hs.maxBaseJobs, ceilLog2_two_pow, hloop, ok_bind, hlog, ok_bind, hrequired]

/-- **What `add_merge_jobs` does** in the middle of a period, at its end, and at
    its end when the last tree is finished. -/
theorem addMergeJobs_flat (hk : 0 < k) (hs : Represents s D t ts) (hp : Period k D q ts)
    {js : List M} (hne : js ≠ []) (hjs : q + js.length ≤ load k D 0 ts.length) :
    ∃ ts', Handed k D s.currJobSeqNo 0 q js ts ts' ∧ (q + js.length < load k D 0 ts.length ∧
          s.addMergeJobs js = .ok ({ s with olderTrees := ts'.map flat }, none) ∨
        q + js.length = load k D 0 ts.length ∧ ts.length < (k + 1) * D ∧ s.addMergeJobs js = .ok ({ s with
            olderTrees := (resetMerges ts').map flat }, none) ∨
        q + js.length = load k D 0 ts.length ∧ ts.length = (k + 1) * D ∧
          ∃ init last v, ts' = init ++ [last] ∧ js.getLast? = some v ∧ s.addMergeJobs js = .ok ({ s with
              olderTrees := (resetMerges init).map flat },
              some (v, leafData (jobs last)))) := by
  obtain ⟨ts', hand, heq⟩ := addMergeJobs_eq hk hs hp hne hjs
  have hlen := hand.length_eq
  refine ⟨ts', hand, ?_⟩
  rcases lt_or_eq_of_le hjs with hjs' | hjs'
  · rw [if_neg (by omega), emitResult_none, if_neg (by omega)] at heq
    exact Or.inl ⟨hjs', heq⟩
  · rcases lt_or_eq_of_le hp.length with hfull | hfull
    · rw [if_neg (by omega), emitResult_none, if_pos (by rw [hs.maxTrees]; omega)] at heq
      exact Or.inr (Or.inl ⟨hjs', hfull, heq⟩)
    · obtain ⟨init, last, rfl⟩ : ∃ init last, ts' = init ++ [last] := by
        rcases eq_nil_or_concat ts' with h | h
        · have hpos' : 0 < (k + 1) * D := mul_pos (succ_pos k) hs.pos
          rw [h, length_nil] at hlen
          omega
        · simpa using h
      have hv := List.getLast?_eq_some_getLast hne
      rw [if_pos ⟨hfull, hjs'⟩, hv, emitResult_some] at heq
      exact Or.inr (Or.inr ⟨hjs', hfull, init, last, _, rfl, hv, heq⟩)

end

end MinaRust.ParallelScan
