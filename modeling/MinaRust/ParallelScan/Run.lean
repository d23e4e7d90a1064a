/-
  Runs of the parallel scan, from the empty one by updates with at most `max_base_jobs` data
  and a result for every job of `work_for_next_update`: how much work there is, that
  `all_jobs` lists it, and that the data come out in order, each chunk with its fold as long
  as the second set of every update is aligned with its jobs.
-/
import MinaRust.ParallelScan.Jobs

namespace MinaRust.ParallelScan

open List Nat

variable {B M : Type} {k delay : ℕ} {baseKind : B → ℕ}

/-! ## Reachable states -/

/-- The states of a scan whose updates bring a result for every job required. -/
inductive Reachable (k delay : ℕ) (baseKind : B → ℕ) : ParallelScan B M → Prop
  | empty : Reachable k delay baseKind (empty (2 ^ k) delay)
  | update {s s' : ParallelScan B M} {data : List B} {js : List M} {res : Option (M × List B)}
      (hs : Reachable k delay baseKind s) (hdata : data.length ≤ s.maxBaseJobs)
      (hjs : js.length = (s.workForNextUpdate data.length).flatten.length)
      (hok : s.update data js baseKind = .ok (s', res)) : Reachable k delay baseKind s'

variable {s : ParallelScan B M}

theorem Reachable.good (hk : 1 ≤ k) (hkind : ∀ b, baseKind b ≤ 2) (hs : Reachable k delay baseKind s) :
    ∃ f q, ∃ t : ScanTree B M k, ∃ ts, Good s (delay + 1) f q t ts := by
  induction hs with
  | empty => exact ⟨0, 0, emptyTree k, [], good_empty k delay⟩
  | update _ hdata hjs hok ih =>
    obtain ⟨f, q, t, ts, hg⟩ := ih
    rw [hg.rep.maxBaseJobs] at hdata
    obtain ⟨s', res, f', q', t', ts', hok', hg', -⟩ := update_good hk hg hdata _ hjs hkind
    rw [hok'] at hok
    cases hok
    exact ⟨f', q', t', ts', hg'⟩

variable {ts : List (ScanTree B M k)} {t : ScanTree B M k}

theorem Good.length_workForNextUpdate {D f q : ℕ} (hg : Good s D f q t ts) {n : ℕ} (hn : n ≤ 2 ^ k) :
    (s.workForNextUpdate n).flatten.length ≤ 2 * n := by
  rcases lt_or_ge (2 ^ k - f) n with hlt | hge
  · have hlen := hg.period.length_workFrom hg.rep.pos
    have hbound := hg.bound
    rw [hg.toRunning.workForNextUpdate_large hlt hn, length_append, length_take]
    omega
  · rw [hg.toRunning.workForNextUpdate_small hge, length_take]
    exact min_le_left ..

/-- **Throughput.**  `n` data require at most `2 * n` jobs, the work for the older
    trees is at most twice the free space, and there are never too many trees; so
    the number of data that need no work never underflows, whatever number of jobs
    is delivered. -/
theorem reachable_throughput (hk : 1 ≤ k) (hkind : ∀ b, baseKind b ≤ 2) {s : ParallelScan B M}
    (hs : Reachable k delay baseKind s) :
    (∀ n ≤ s.maxBaseJobs, (s.workForNextUpdate n).flatten.length ≤ 2 * n) ∧
      (s.workForTree .current).length ≤ 2 * s.freeSpaceOnCurrentTree ∧
      s.trees.length ≤ s.maxTrees ∧
      ∀ n ≤ s.maxBaseJobs, ∀ got, checkJobs s.maxBaseJobs n
        (s.workForNextUpdate n).flatten.length got ≠ .error .underflow := by
  obtain ⟨f, q, t, ts, hg⟩ := hs.good hk hkind
  refine ⟨fun n hn => ?_, ?_, ?_, fun n hn got => ?_⟩
  · rw [hg.rep.maxBaseJobs] at hn
    exact hg.length_workForNextUpdate hn
  · rw [hg.rep.work, hg.period.length_workFrom hg.rep.pos, freeSpaceOnCurrentTree, hg.toRunning.space_eq]
    exact hg.bound
  · have hlen := hg.period.length
    rw [hg.rep.trees_eq, hg.rep.maxTrees, length_map, length_cons]
    omega
  · rw [hg.rep.maxBaseJobs] at hn ⊢
    have hlen := hg.length_workForNextUpdate hn
    unfold checkJobs
    dsimp only
    split_ifs
    · rw [checkedSub_of_le (by unfold divCeil2; omega), ok_bind, ensure]
      split_ifs <;> simp
    · simp

theorem reachable_throughput_three : ∃ s : ParallelScan ℕ ℕ, s.currJobSeqNo = 2 ∧
    (s.workForNextUpdate 4).flatten.length ≤ 8 :=
  ⟨_, rfl, (reachable_throughput (by decide) (fun _ => le_refl 2)
    (.update (.update (.empty : Reachable 2 1 _ _) (by decide) (by decide)
      (rfl : update _ [1, 2, 3] [] _ = .ok (_, _))) (by decide) (by decide)
      (rfl : update _ [4, 5, 6] [] _ = .ok (_, _)))).1 4 (by decide)⟩

/-! ## The weights -/

/-- **The weights count**: above the height `j`, those of a node are `n` of its two subtrees. -/
def Counts (w : Weight → ℕ) (n : (h : ℕ) → JobTree B M h → ℕ) (j : ℕ) : {h : ℕ} → ScanTree B M h → Prop
  | 0, .leaf _ => True
  | h + 1, .node m l r => j ≤ h → w m.weight.1 = n h (jobs l) ∧ w m.weight.2 = n h (jobs r) ∧
      Counts w n j l ∧ Counts w n j r

def emptyLeaves (h : ℕ) (t : JobTree B M h) : ℕ := 2 ^ h - (leafData t).length

theorem SpaceWeighted.counts : ∀ {h f : ℕ} {t : ScanTree B M h}, f ≤ 2 ^ h → Filling f (jobs t) →
    SpaceWeighted f t → Counts Weight.base emptyLeaves 0 t
  | 0, _, .leaf _, _, _, _ => trivial
  | h + 1, f, .node m l r, hf, ⟨_, hl, hr⟩, ⟨wl, wr, sl, sr⟩ => fun _ => by
    have hf' : f - 2 ^ h ≤ 2 ^ h := by omega
    exact ⟨wl.trans (congrArg (2 ^ h - ·) (hl.length_leafData (min_le_right ..)).symm),
      wr.trans (congrArg (2 ^ h - ·) (hr.length_leafData hf').symm), counts (min_le_right ..) hl sl, counts hf' hr sr⟩

theorem Weighted.counts {j : ℕ} : ∀ {h c : ℕ} {t : ScanTree B M h}, c ≤ 2 ^ (h - j) → Shape j c (jobs t) →
    Weighted j c t → Counts Weight.merge (fun _ u => (todoAt j u).length) j t
  | 0, _, .leaf _, _, _, _ => trivial
  | h + 1, c, .node m l r, hc, hs, hw => fun hj => by
    rw [jobs_node, shape_node hj] at hs
    rw [Weighted, if_neg (by omega)] at hw
    rw [two_pow_sub hj] at hc
    have hr : c - 2 ^ (h - j) ≤ 2 ^ (h - j) := by omega
    exact ⟨hw.1.trans (hs.1.length_todoAt hj (min_le_right ..)).symm,
      hw.2.1.trans (hs.2.1.length_todoAt hj hr).symm, counts (min_le_right ..) hs.1 hw.2.2.1,
      counts hr hs.2.1 hw.2.2.2⟩

/-- What the weights of an older tree say about its jobs at height `j`. -/
def CountsJobs (j : ℕ) (t : ScanTree B M k) : Prop :=
  (flat t).requiredJobCount = (todoAt j (jobs t)).length ∧
    Counts Weight.merge (fun _ u => (todoAt j u).length) j t

theorem Busy.countsJobs {D : ℕ} (hD : 0 < D) : ∀ {ts : List (ScanTree B M k)} {i q : ℕ}, Busy k D i q ts →
    i + ts.length ≤ (k + 1) * D → (q = 0 ∨ q < load k D i ts.length) →
    ∀ n u, ts[n]? = some u → CountsJobs ((i + n) / D) u
  | [], _, _, _, _, _ => by simp
  | t :: ts, i, q, ⟨ht, hw, hts⟩, hlen, hq => by
    rw [length_cons] at hlen hq
    rw [load] at hq
    have hdiv : i / D ≤ k := div_le_of_lt (by omega)
    have hc : min q (cap k D i) ≤ 2 ^ (k - i / D) := by
      refine (min_le_right ..).trans ?_
      rw [cap]
      split_ifs
      exacts [le_rfl, Nat.zero_le _]
    -- the root's job is the last one of a period
    have hroot : i / D = k → min q (cap k D i) = 0 := by
      intro hik
      by_cases hi : i % D = D - 1
      · have hlast := last_of_div_eq hD hi hik
        obtain rfl : ts = [] := length_eq_zero_iff.1 (by omega)
        rw [cap_of_worked hi hdiv, hik, Nat.sub_self, length_nil, load] at *
        omega
      · rw [cap_of_other hi, Nat.min_zero]
    rintro (_ | n) u hu
    · obtain rfl : t = u := by simpa using hu
      exact ⟨by rw [requiredJobCount_flat, Nat.add_zero, hw.mergeWeight_eq hdiv hc hroot,
        ht.length_todoAt hdiv hc], hw.counts hc ht⟩
    · rw [show i + (n + 1) = i + 1 + n by omega]
      exact Busy.countsJobs hD hts (by omega) (by omega) n u (by simpa using hu)

theorem Represents.jobCount {D : ℕ} (hs : Represents s D t ts) : s.jobCount = countsOf (t :: ts) := by
  have htree : ∀ (u : ScanTree B M k) (accum : ℚ × ℚ),
      (flat u).foldDepth (fun _ => countMerge) countBase accum = accum + counts (jobs u) := by
    intro u accum
    rw [foldDepth_add (fun m : Merge M => m.job.count) (fun b : Base B => b.job.count) _ _ accum u,
      counts, jobs, PTree.total_map]
    · rintro i ⟨x, y⟩ ⟨w, _ | a | ⟨a, b, n, _ | _⟩⟩ <;> simp [countMerge, Merge.Job.count]
    · rintro ⟨x, y⟩ ⟨w, _ | ⟨a, n, _ | _⟩⟩ <;> simp [countBase, Base.Job.count]
  have hfold : ∀ (us : List (ScanTree B M k)) (accum : ℚ × ℚ),
      (us.map flat).foldl (fun accum tree => tree.foldDepth (fun _ => countMerge) countBase accum)
        accum = accum + countsOf us := by
    intro us
    induction us with
    | nil => intro accum; exact (add_zero accum).symm
    | cons u us ih =>
      intro accum
      rw [map_cons, foldl_cons, htree, ih, countsOf_cons, add_assoc]
  rw [ParallelScan.jobCount, hs.trees_eq, ← map_reverse, hfold, countsOf, map_reverse,
    sum_reverse, countsOf]
  exact zero_add _

/-- **Job conservation.**  `all_jobs` lists the jobs to be done, each exactly once; and `d` data
    and `c` results change their number by `d - c + c / 2` and the number of jobs done by `c`,
    except that the tree of an emitted result leaves. -/
theorem reachable_jobs (hk : 1 ≤ k) (hkind : ∀ b, baseKind b ≤ 2) {s : ParallelScan B M}
    (hs : Reachable k delay baseKind s) :
    s.allJobs.flatten.Perm s.todoJobs ∧ ∀ (data : List B) (js : List M), data.length ≤ s.maxBaseJobs →
        js.length = (s.workForNextUpdate data.length).flatten.length →
        ∃ s' res, s.update data js baseKind = .ok (s', res) ∧ s'.jobCount =
          if res.isSome then
            (s.jobCount.1 + (data.length - js.length + (js.length - 1) / 2),
              s.jobCount.2 + js.length - (2 * s.maxBaseJobs - 1))
          else (s.jobCount.1 + (data.length - js.length + js.length / 2), s.jobCount.2 + js.length) := by
  obtain ⟨f, q, t, ts, hg⟩ := hs.good hk hkind
  refine ⟨hg.toRunning.allJobs_perm, fun data js hdata hjs => ?_⟩
  rw [hg.rep.maxBaseJobs] at hdata
  obtain ⟨s', res, f', q', t', ts', hok, hg', hup, -⟩ := update_good hk hg hdata _ hjs hkind
  refine ⟨s', res, hok, ?_⟩
  rw [hg'.rep.jobCount, hg.rep.jobCount, hup.counts, answered, hg.rep.maxBaseJobs]
  split_ifs
  · ext
    · simp only [Prod.fst_add, Prod.fst_sub]; ring
    · simp only [Prod.snd_add, Prod.snd_sub]; push_cast; ring
  · ext
    · simp only [Prod.fst_add, Prod.fst_sub, Prod.fst_zero]; ring
    · simp only [Prod.snd_add, Prod.snd_sub, Prod.snd_zero]; ring

theorem reachable_jobs_second : ∃ (s s' : ParallelScan ℕ ℕ) (res : Option (ℕ × List ℕ)),
    s.currJobSeqNo = 1 ∧ s.update [5, 6] [10, 20, 30, 40] (fun _ => 0) = .ok (s', res) ∧
      s'.jobCount = if res.isSome then
          (s.jobCount.1 + ((2 : ℕ) - (4 : ℕ) + ((4 : ℕ) - 1) / 2),
            s.jobCount.2 + (4 : ℕ) - (2 * s.maxBaseJobs - 1))
        else (s.jobCount.1 + ((2 : ℕ) - (4 : ℕ) + (4 : ℕ) / 2), s.jobCount.2 + (4 : ℕ)) := by
  obtain ⟨s', res, h⟩ := (reachable_jobs (by decide) (fun _ => zero_le 2)
    (.update (.empty : Reachable 2 0 _ _) (by decide) (by decide)
      (rfl : update (empty (2 ^ 2) 0) [1, 2, 3, 4] []
        (fun _ => 0) = .ok (_, _)))).2 [5, 6] [10, 20, 30, 40] (by decide) (by decide)
  exact ⟨_, s', res, rfl, h⟩

/-! ## Honest runs -/

section Runs
variable (val : B → M) (op : M → M → M) (baseKind : B → ℕ)

def honestJobs (s : ParallelScan B M) (n : ℕ) : List M :=
  (s.workForNextUpdate n).flatten.map (honest val op)

/-- A run of updates with honest results: the last state and the results
    returned. -/
def runUpdates : ParallelScan B M → List (List B) → Except Panic (ParallelScan B M × List (M × List B))
  | s, [] => .ok (s, [])
  | s, data :: rest => do
    let (s, res) ← s.update data (honestJobs val op s data.length) baseKind
    let (s, results) ← runUpdates s rest
    .ok (s, res.toList ++ results)

/-- The jobs handed out for the second set are still the next ones when its data come. -/
def Aligned (s : ParallelScan B M) (n : ℕ) : Prop :=
  0 < s.delay ∨ ∀ job ∈ (s.workForTree .next).take (2 * (n - s.freeSpaceOnCurrentTree)), ∃ b, job = .base b

def AlignedRun : ParallelScan B M → List (List B) → Prop
  | _, [] => True
  | s, data :: rest => Aligned s data.length ∧ ∀ s' res,
      s.update data (honestJobs val op s data.length) baseKind = .ok (s', res) → AlignedRun s' rest

variable {val op baseKind}

theorem Running.aligned_iff {D f q n : ℕ} (hr : Running s D f q t ts) :
    Aligned s n ↔ AlignedOn D (2 * (n - (2 ^ k - f))) t ts := by
  have hdelay := hr.rep.delay
  rw [Aligned, hr.rep.work_next, freeSpaceOnCurrentTree, hr.space_eq]
  refine or_congr ?_ Iff.rfl
  omega

theorem Represents.pendingData {s : ParallelScan B M} {D : ℕ} {t : ScanTree B M k}
    {ts : List (ScanTree B M k)} (hs : Represents s D t ts) :
    s.pendingData.flatten = allData t ts := by
  rw [ParallelScan.pendingData, hs.trees_eq, allData_eq, ← map_reverse, map_map,
    reverse_cons, map_append, flatten_append, map_reverse]
  simp [Function.comp_def, baseJobs_flat]

theorem runUpdates_good (hk : 1 ≤ k) (val : B → M) (hop : ∀ a b c, op (op a b) c = op a (op b c))
    (hkind : ∀ b, baseKind b ≤ 2) {D : ℕ} : ∀ {datas : List (List B)} {s : ParallelScan B M}
    {f q : ℕ} {t : ScanTree B M k} {ts : List (ScanTree B M k)},
    Good s D f q t ts → (∀ data ∈ datas, data.length ≤ 2 ^ k) →
    ∃ s' results, runUpdates val op baseKind s datas = .ok (s', results) ∧
      (results.map Prod.snd).flatten ++ s'.pendingData.flatten = allData t ts ++ datas.flatten ∧
      (∀ r ∈ results, r.2.length = 2 ^ k) ∧
      (AlignedRun val op baseKind s datas → (∀ u ∈ ts, Values val op (jobs u)) →
        ∀ r ∈ results, foldData val op r.2 = some r.1)
  | [], s, f, q, t, ts, hg, _ => by
    refine ⟨s, [], rfl, ?_, by simp, by simp⟩
    rw [hg.rep.pendingData]; simp
  | data :: rest, s, f, q, t, ts, hg, hlen => by
    rw [forall_mem_cons] at hlen
    obtain ⟨s₁, res, f₁, q₁, t₁, ts₁, hok, hg₁, hup, hval⟩ := update_good hk hg hlen.1
      (honestJobs val op s data.length) (by rw [honestJobs, length_map]) hkind
    obtain ⟨s', results, hrun, hdata, hchunk, hfold⟩ := runUpdates_good hk val hop hkind hg₁ hlen.2
    refine ⟨s', res.toList ++ results, ?_, ?_, ?_, ?_⟩
    · rw [runUpdates, hok, ok_bind]
      dsimp only
      rw [hrun, ok_bind]
    · have hres : (res.toList.map Prod.snd).flatten = res.elim [] Prod.snd := by
        cases res <;> simp
      rw [map_append, flatten_append, hres, append_assoc, hdata, flatten_cons,
        ← append_assoc, ← hup.data, append_assoc]
    · intro r hr
      rcases mem_append.1 hr with hr | hr
      · exact hup.chunk r.1 r.2 (by simpa using hr)
      · exact hchunk r hr
    · rintro ⟨hal, hals⟩ hv r hr
      obtain ⟨hv₁, hres⟩ := hval val op hop (hg.toRunning.aligned_iff.1 hal) rfl hv
      rcases mem_append.1 hr with hr | hr
      · exact hres r.1 r.2 (by simpa using hr)
      · exact hfold (hals s₁ res hok) hv₁ r hr

/-- **The scan is an ordered fold.**  A run of honest updates from the empty scan never fails;
    the data emitted, `2 ^ k` with each result, and those still there are the data enqueued, in
    order; and in aligned updates each result is the left-to-right fold of its data. -/
theorem runUpdates_fold (hk : 1 ≤ k) (delay : ℕ) (val : B → M) (op : M → M → M)
    (hop : ∀ a b c, op (op a b) c = op a (op b c)) (baseKind : B → ℕ) (hkind : ∀ b, baseKind b ≤ 2)
    (datas : List (List B)) (hlen : ∀ data ∈ datas, data.length ≤ 2 ^ k) :
    ∃ s results, runUpdates val op baseKind (empty (2 ^ k) delay) datas = .ok (s, results) ∧
      (results.map Prod.snd).flatten ++ s.pendingData.flatten = datas.flatten ∧
      (∀ r ∈ results, r.2.length = 2 ^ k) ∧
      (AlignedRun val op baseKind (empty (2 ^ k) delay) datas →
        ∀ r ∈ results, foldData val op r.2 = some r.1) := by
  obtain ⟨s, results, hrun, hdata, hchunk, hfold⟩ := runUpdates_good hk val hop hkind
    (good_empty k delay) hlen
  refine ⟨s, results, hrun, ?_, hchunk, fun hal => hfold hal (by simp)⟩
  rw [hdata, allData_eq]
  have hnil := length_eq_zero_iff.1 ((filling_emptyTree (B := B) (M := M) k).length_leafData (zero_le _))
  rw [hnil]; rfl

theorem alignedRun_of_good (hk : 1 ≤ k) (hkind : ∀ b, baseKind b ≤ 2) {D : ℕ} (hD : 2 ≤ D) :
    ∀ {datas : List (List B)} {s : ParallelScan B M} {f q : ℕ} {t : ScanTree B M k}
      {ts : List (ScanTree B M k)}, Good s D f q t ts →
      (∀ data ∈ datas, data.length ≤ 2 ^ k) → AlignedRun val op baseKind s datas
  | [], _, _, _, _, _, _, _ => trivial
  | data :: rest, s, f, q, t, ts, hg, hlen => by
    rw [forall_mem_cons] at hlen
    refine ⟨hg.toRunning.aligned_iff.2 (Or.inl hD), fun s' res hok => ?_⟩
    obtain ⟨s₁, res₁, f₁, q₁, t₁, ts₁, hok₁, hg₁, -⟩ := update_good hk hg hlen.1
      (honestJobs val op s data.length) (by rw [honestJobs, length_map]) hkind
    rw [hok₁] at hok
    cases hok
    exact alignedRun_of_good hk hkind hD hg₁ hlen.2

end Runs

/-- With `delay = 1` the strings of a run come out concatenated in order. -/
theorem runUpdates_fold_delay_one : ∃ s results, runUpdates (fun n : ℕ => [n]) (· ++ ·) (fun _ => 0)
    (empty (2 ^ 1) 1) [[0, 1], [2, 3], [4], [5, 6], [7, 8], [9]] = .ok (s, results) ∧
      ∀ r ∈ results, foldData (fun n : ℕ => [n]) (· ++ ·) r.2 = some r.1 := by
  obtain ⟨s, results, hrun, -, -, hfold⟩ := runUpdates_fold le_rfl 1
    (fun n : ℕ => [n]) (· ++ ·) append_assoc (fun _ => 0) (fun _ => zero_le 2)
    [[0, 1], [2, 3], [4], [5, 6], [7, 8], [9]] (by decide)
  exact ⟨s, results, hrun, hfold (alignedRun_of_good le_rfl (fun _ => zero_le 2) le_rfl
    (good_empty 1 1) (by decide))⟩

/-- With `delay = 0` they can come out in another order: in the third update the
    result of the merge job of `0` and `1`, handed out for the second set, goes to
    the leaf of `3`. -/
theorem runUpdates_fold_delay_zero : ∃ s results, runUpdates (fun n : ℕ => [n]) (· ++ ·)
    (fun _ => 0) (empty (2 ^ 1) 0) [[0, 1], [2], [3, 4], [5], [6, 7]] = .ok (s, results) ∧
      ∃ r ∈ results, foldData (fun n : ℕ => [n]) (· ++ ·) r.2 ≠ some r.1 := by
  refine ⟨_, _, rfl, ([2, 0, 1], [2, 3]), by decide, by decide⟩

end MinaRust.ParallelScan
