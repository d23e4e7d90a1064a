/-
  One update of a running scan (`Good`, `Updated`).

  Honest results keep the values of the trees right when every result of the second set
  meets its own job (`Aligned`): with `delay = 0` the jobs handed out for the second set can
  be merge jobs of the level above, whose results then go to leaves.
-/
import MinaRust.ParallelScan.Step

namespace MinaRust.ParallelScan

open List Nat

variable {B M : Type} {k D : ℕ}

/-- The trees of a scan and what holds of them between two sets of an update. -/
structure Running (s : ParallelScan B M) (D f q : ℕ) (t : ScanTree B M k)
    (ts : List (ScanTree B M k)) : Prop where
  rep : Represents s D t ts
  filled : f < 2 ^ k
  filling : Filling f (jobs t)
  space : SpaceWeighted f t
  period : Period k D q ts
  seqs : Sequenced s.currJobSeqNo t ts

/-- Between two updates, the work left is at most twice the free space. -/
structure Good (s : ParallelScan B M) (D f q : ℕ) (t : ScanTree B M k)
    (ts : List (ScanTree B M k)) : Prop extends Running s D f q t ts where
  bound : load k D 0 ts.length - q ≤ 2 * (2 ^ k - f)

theorem good_empty (k delay : ℕ) :
    Good (empty (2 ^ k) delay : ParallelScan B M) (delay + 1) 0 0 (emptyTree k) [] where
  rep := ⟨by rw [empty, ceilLog2_two_pow, createTree_eq], rfl, rfl, rfl⟩
  filled := Nat.two_pow_pos k
  filling := filling_emptyTree k
  space := spaceWeighted_emptyTree k
  period := ⟨Nat.zero_le _, Nat.zero_le _, fun h => by simp [load] at h, fun _ =>
    ⟨mul_pos (succ_pos k) (succ_pos delay), trivial⟩⟩
  seqs := by
    have hnil : allEntries (emptyTree k : ScanTree B M k) [] = [] :=
      (filling_emptyTree k).entries_zero
    refine ⟨by rw [hnil]; exact .nil, by rw [hnil]; simp, ?_, by simp⟩
    intro u hu
    rw [mem_singleton.1 hu]
    exact (filling_emptyTree k).seqAll
  bound := by simp [load]

/-! ## One set of jobs and data -/

theorem Busy.skip (hD : 0 < D) : ∀ {ts : List (ScanTree B M k)} {i : ℕ},
    Busy k D i 0 ts → load k D i ts.length = 0 → i + ts.length ≤ (k + 1) * D →
    Busy k D (i + 1) 0 ts
  | [], _, _, _, _ => trivial
  | t :: ts, i, ⟨ht, hw, hts⟩, hl, hlen => by
    rw [length_cons] at hl hlen
    rw [load] at hl
    have hother : i % D ≠ D - 1 := by
      intro h
      rw [cap_of_worked h (div_le_of_lt (by omega))] at hl
      have := Nat.two_pow_pos (k - i / D)
      omega
    rw [Nat.zero_sub] at hts
    refine ⟨?_, ?_, ?_⟩
    · rw [succ_div_of_other hD hother]; exact ht
    · rw [succ_div_of_other hD hother]; exact hw
    · rw [Nat.zero_sub]; exact skip hD hts (by omega) (by omega)

theorem Period.push {q : ℕ} {ts : List (ScanTree B M k)} (hD : 0 < D)
    (hp : Period k D q ts) (hq : q = load k D 0 ts.length) {u : ScanTree B M k}
    (hu : Filling (2 ^ k) (jobs u)) (hw : Weighted 0 0 u) : Period k D 0 (u :: ts) := by
  obtain ⟨hlen, hidle⟩ := hp.idle hq
  have hbusy : Busy k D 0 0 (u :: ts) := by
    refine ⟨?_, ?_, ?_⟩
    · rw [Nat.zero_div]; exact hu.full
    · rw [Nat.zero_div]; exact hw
    · rw [Nat.zero_sub]; exact hidle
  refine ⟨by rw [length_cons]; omega, Nat.zero_le _, fun _ => hbusy, fun h => ?_⟩
  have hlt : (u :: ts).length < (k + 1) * D := by
    by_contra hge
    rw [length_cons] at h hge
    have hfull := load_full (k := k) hD (ts.length + 1) 0 (by omega)
    rw [Nat.zero_div] at hfull
    have := Nat.one_lt_two_pow (n := k + 1 - 0) (by omega)
    omega
  exact ⟨hlt, hbusy.skip hD h.symm (by omega)⟩

section Sets
variable {s : ParallelScan B M} {f q : ℕ} {t : ScanTree B M k}
  {ts : List (ScanTree B M k)}

variable {ts' : List (ScanTree B M k)} {res : Option (M × List B)} {js : List M} {n : ℕ}

theorem Answered.entries {q' : ℕ} (ha : Answered k D n q js ts ts' res q') (t : ScanTree B M k) :
    ∃ es, allEntries t ts = es ++ allEntries t ts' ∧ es.map Prod.fst = res.elim [] Prod.snd := by
  rcases res with _ | ⟨v, ds⟩
  · refine ⟨[], ?_, rfl⟩
    have h := ha.kept rfl
    rw [entriesOf] at h
    rw [allEntries, allEntries, h]; rfl
  · obtain ⟨u, -, hds, h⟩ := ha.emitted v ds rfl
    refine ⟨leafEntries (jobs u), ?_, hds.symm⟩
    rw [entriesOf] at h
    rw [allEntries, h, reverse_append, reverse_singleton, singleton_append, flatten_cons, append_assoc]
    rfl

theorem Answered.mem_entries {q' : ℕ} (ha : Answered k D n q js ts ts' res q') :
    ∀ u ∈ ts', ∃ w ∈ ts, leafEntries (jobs u) = leafEntries (jobs w) := by
  intro u hu
  have hmem : leafEntries (jobs u) ∈ entriesOf ts := by
    have hu' : leafEntries (jobs u) ∈ entriesOf ts' := mem_map.2 ⟨u, hu, rfl⟩
    rcases res with _ | ⟨v, ds⟩
    · rwa [ha.kept rfl] at hu'
    · obtain ⟨w, -, -, h⟩ := ha.emitted v ds rfl
      rw [h]; exact mem_append_left _ hu'
  obtain ⟨w, hw, he⟩ := mem_map.1 hmem
  exact ⟨w, hw, he.symm⟩

variable {t' : ScanTree B M k} {ts₁ : List (ScanTree B M k)}

variable {ds : List B} {f' : ℕ}

theorem Sequenced.step {q' : ℕ} (hq : Sequenced n t ts) (ha : Answered k D n q js ts ts₁ res q')
    (he : Extended n ds f t ts₁ f' t' ts') : Sequenced n t' ts' := by
  obtain ⟨es, hes, -⟩ := ha.entries t
  have hsorted := hq.sorted
  have hle := hq.le
  rw [hes] at hsorted hle
  have hfull : ∀ u ∈ ts₁, (leafEntries (jobs u)).length = 2 ^ k := by
    intro u hu
    obtain ⟨w, hw, hent⟩ := ha.mem_entries u hu
    rw [hent]; exact hq.full w hw
  refine ⟨?_, ?_, ?_, ?_⟩
  · rw [he.entries]
    refine pairwise_append.2 ⟨(pairwise_append.1 hsorted).2.1, ?_, ?_⟩
    · rw [pairwise_map]
      exact pairwise_of_forall fun _ _ => le_rfl
    · intro a ha' b hb
      obtain ⟨d, -, rfl⟩ := mem_map.1 hb
      exact hle a (mem_append_right _ ha')
  · intro e hmem
    rw [he.entries] at hmem
    rcases mem_append.1 hmem with hmem | hmem
    · exact hle e (mem_append_right _ hmem)
    · obtain ⟨d, -, rfl⟩ := mem_map.1 hmem
      exact le_rfl
  · refine he.dated ?_
    have hd := hq.dated
    rw [forall_mem_cons] at hd ⊢
    refine ⟨hd.1, ha.dated fun u hu => ⟨hd.2 u hu, ?_⟩⟩
    have hlen := hq.full u hu
    obtain ⟨e, hmem⟩ := exists_mem_of_length_pos
      (by rw [hlen]; exact Nat.two_pow_pos k)
    exact ⟨e, hmem, hq.le e (mem_allEntries.2 ⟨u, mem_cons_of_mem _ hu, hmem⟩)⟩
  · rcases he.older with ⟨-, -, rfl⟩ | ⟨-, -, u, rfl, hu, -, -⟩
    · exact hfull
    · rw [forall_mem_cons]
      refine ⟨?_, hfull⟩
      have h := hu.length_leafData le_rfl
      rwa [leafData_eq, length_map] at h

variable {baseKind : B → ℕ}

/-- **One set of jobs and data.**  A current tree may become full only when the
    period is over. -/
theorem updateSet_running (hk : 0 < k) (hr : Running s D f q t ts) (js : List M) (ds : List B)
    (hjs : q + js.length ≤ load k D 0 ts.length) (hds : f + ds.length ≤ 2 ^ k)
    (hfull : f + ds.length = 2 ^ k → q + js.length = load k D 0 ts.length) (hkind : ∀ b, baseKind b ≤ 2) :
    ∃ s' res ts₁ q₁ f' t' ts', s.updateSet js ds baseKind = .ok (s', res) ∧
      Running s' D f' (if f + ds.length = 2 ^ k then 0 else q₁) t' ts' ∧
      Answered k D s.currJobSeqNo q js ts ts₁ res q₁ ∧
      Extended s.currJobSeqNo ds f t ts₁ f' t' ts' := by
  obtain ⟨ts₁, res, q₁, hadd, ha⟩ := addMergeJobs_answered hk hr.rep hr.period js hjs
  have hrep : Represents { s with olderTrees := ts₁.map flat } D t ts₁ :=
    ⟨hr.rep.curr, rfl, hr.rep.maxBaseJobs, hr.rep.delay⟩
  obtain ⟨f', t', ts', hdata, he⟩ := addData_extended hk hrep hr.filled hr.filling hr.space hds hkind
  refine ⟨{ s with currTree := flat t', olderTrees := ts'.map flat }, res, ts₁, q₁, f', t', ts', ?_,
    ⟨⟨rfl, rfl, hr.rep.maxBaseJobs, hr.rep.delay⟩, he.filled,
    he.filling, he.space, ?_, hr.seqs.step ha he⟩, ha, he⟩
  · rw [updateSet, hadd, ok_bind]
    dsimp only
    rw [hdata, ok_bind]
  · rcases he.older with ⟨hlt, -, rfl⟩ | ⟨heq, -, u, rfl, hu, hw, -⟩
    · rw [if_neg (by omega)]; exact ha.period
    · rw [if_pos heq]
      refine ha.period.push hr.rep.pos ?_ hu hw
      have hleft := ha.left
      have hle := ha.period.le
      omega

/-! ## A whole update -/

/-- What an update with the data `ds` and the results `js` does to the trees. -/
structure Updated (k : ℕ) (ds : List B) (js : List M) (t : ScanTree B M k)
    (ts : List (ScanTree B M k)) (res : Option (M × List B))
    (t' : ScanTree B M k) (ts' : List (ScanTree B M k)) : Prop where
  data : allData t ts ++ ds = res.elim [] Prod.snd ++ allData t' ts'
  chunk : ∀ v ds, res = some (v, ds) → ds.length = 2 ^ k
  counts : countsOf (t' :: ts') = countsOf (t :: ts) + ((ds.length : ℚ), 0) +
    answered js.length res.isSome - (if res.isSome then (0, 2 ^ (k + 1) - 1) else 0)

/-- The updated trees hold right values, and an emitted result is the fold of its
    data. -/
def ValuesKept (val : B → M) (op : M → M → M) (ts : List (ScanTree B M k))
    (res : Option (M × List B)) (ts' : List (ScanTree B M k)) : Prop :=
  (∀ u ∈ ts, Values val op (jobs u)) → (∀ u ∈ ts', Values val op (jobs u)) ∧
    ∀ v ds, res = some (v, ds) → foldData val op ds = some v

theorem Extended.values (he : Extended n ds f t ts f' t' ts') {val : B → M} {op : M → M → M}
    (hv : ∀ u ∈ ts, Values val op (jobs u)) : ∀ u ∈ ts', Values val op (jobs u) := by
  rcases he.older with ⟨-, -, rfl⟩ | ⟨-, -, u, rfl, hu, -, -⟩
  · exact hv
  · rw [forall_mem_cons]; exact ⟨hu.values, hv⟩

theorem Updated.of_set {q₁ : ℕ} (hq : Sequenced n t ts) (ha : Answered k D n q js ts ts₁ res q₁)
    (he : Extended n ds f t ts₁ f' t' ts') :
    Updated k ds js t ts res t' ts' where
  data := by
    obtain ⟨es, hes, hres⟩ := ha.entries t
    rw [allData, hes, allData, he.entries, map_append, map_append, hres, map_map]
    simp [Function.comp_def]
  chunk := by
    intro v ds h
    obtain ⟨u, hu, hds, -⟩ := ha.emitted v ds h
    rw [hds, length_map]; exact hq.full u hu
  counts := by
    rw [he.counts, countsOf_cons, countsOf_cons, ha.counts]
    abel

theorem Running.withAcc (hr : Running s D f q t ts) (a : Option (M × List B)) :
    Running { s with acc := a } D f q t ts :=
  ⟨⟨hr.rep.curr, hr.rep.older, hr.rep.maxBaseJobs, hr.rep.delay⟩, hr.filled, hr.filling, hr.space,
    hr.period, hr.seqs⟩

theorem Running.space_eq (hr : Running s D f q t ts) : s.currTree.availableSpace = 2 ^ k - f := by
  rw [hr.rep.curr, availableSpace_flat, hr.space.baseWeight_eq hr.filled.le]

theorem Running.length_work (hr : Running s D f q t ts) :
    (work s.olderTrees (s.delay + 1) s.maxBaseJobs).length = load k D 0 ts.length - q := by
  have h := congrArg List.length hr.rep.work
  rw [hr.period.length_workFrom hr.rep.pos] at h
  exact h

theorem Running.finish (hr : Running s D f q t ts) (res : Option (M × List B)) : ∃ s', (do
      let s := if res.isSome then { s with acc := res } else s
      ensure Panic.tooManyTrees (s.trees.length ≤ s.maxTrees)
      .ok (s, res) : Except Panic (ParallelScan B M × Option (M × List B))) = .ok (s', res) ∧
      Running s' D f q t ts := by
  have hacc : Running (if res.isSome then { s with acc := res } else s) D f q t ts := by
    split_ifs
    · exact hr.withAcc res
    · exact hr
  refine ⟨_, ?_, hacc⟩
  dsimp only
  rw [ensure_of, ok_bind]
  rw [hacc.rep.maxTrees, trees, length_cons, hacc.rep.older, length_map]
  have := hr.period.length
  omega

variable {data : List B}

theorem updateSets_small (hk : 0 < k) (hg : Good s D f q t ts) (hdata : data.length ≤ 2 ^ k - f)
    (hjs : js.length = min (2 * data.length) (load k D 0 ts.length - q)) (hkind : ∀ b, baseKind b ≤ 2) :
    ∃ s' res f' q' t' ts', s.updateSets data js baseKind = .ok (s', res) ∧
      Good s' D f' q' t' ts' ∧ Updated k data js t ts res t' ts' ∧
      ∀ (val : B → M) op, (∀ a b c, op (op a b) c = op a (op b c)) →
        js <+: (workFrom k D 0 ts).map (honest val op) → ValuesKept val op ts res ts' := by
  have hfilled := hg.filled
  have hbound := hg.bound
  have hle := hg.period.le
  obtain ⟨s₁, res, ts₁, q₁, f', t', ts', hset, hr, ha, he⟩ := updateSet_running hk hg.toRunning
    js data (by omega) (by omega) (by omega) hkind
  obtain ⟨s', hs', hr'⟩ := hr.finish res
  refine ⟨s', res, f', _, t', ts', ?_, ⟨hr', ?_⟩, .of_set hg.seqs ha he, ?_⟩
  · rw [updateSets]
    rw [hg.toRunning.space_eq, hg.toRunning.length_work, take_of_length_le hdata,
      drop_eq_nil_iff.2 hdata, take_of_length_le (by omega),
      drop_eq_nil_iff.2 (by omega), hset]
    exact hs'
  · have hleft := ha.left
    rcases he.older with ⟨hlt, rfl, rfl⟩ | ⟨heq, rfl, u, rfl, -, -, -⟩
    · rw [if_neg (by omega)]
      omega
    · have := load_succ_le (k := k) hg.rep.pos (u :: ts₁).length 0
      rw [Nat.zero_div, Nat.sub_zero] at this
      omega
  · intro val op hop hh hv
    obtain ⟨h₁, h₂⟩ := ha.values val op hop hv hh
    exact ⟨he.values h₁, h₂⟩

/-! ## An update over two trees -/

theorem load_zero_succ (n : ℕ) : load k D 0 (n + 1) = cap k D 0 + load k D 1 n := rfl

theorem Good.length_next (hg : Good s D f q t ts) :
    (workFrom k D 0 (t :: ts)).length ≤ load k D 0 (ts.length + 1) ∧
      load k D 0 (ts.length + 1) ≤ (workFrom k D 0 (t :: ts)).length + 2 * (2 ^ k - f) := by
  have hD := hg.rep.pos
  have hbound := hg.bound
  have hrest : (workFrom k D 1 ts).length ≤ load k D 1 ts.length ∧
      load k D 1 ts.length ≤ (workFrom k D 1 ts).length + (2 ^ k - f) := by
    rcases lt_or_eq_of_le hg.period.le with hlt | heq
    · obtain ⟨h₁, h₂⟩ := (hg.period.busy hlt).length_next hD
        (by rw [Nat.zero_add]; exact hg.period.length) hlt.le
      rw [Nat.zero_add] at h₁ h₂
      exact ⟨h₁, by omega⟩
    · have h := (hg.period.idle heq).2.length_workFrom
      rw [Nat.sub_zero] at h
      exact ⟨h.le, by omega⟩
  obtain ⟨h₁, h₂⟩ := hrest
  have hf := hg.filled
  rw [workFrom, Nat.zero_add, length_append, load_zero_succ, Nat.zero_div, cap, Nat.zero_div,
    Nat.zero_mod, Nat.sub_zero]
  split_ifs
  · rw [hg.filling.todoAt_zero, length_map, hg.filling.length_leafData hf.le]
    omega
  · rw [length_nil]
    omega

theorem mem_todoAt_succ {j : ℕ} : ∀ {h : ℕ} {t : JobTree B M h} {x : AvailableJob B M},
    x ∈ todoAt (j + 1) t → ∃ a b, x = .merge a b := by
  intro h
  induction h with
  | zero =>
    intro t x hx
    rw [todoAt_of_gt (succ_pos j)] at hx
    cases hx
  | succ h ih =>
    intro t x hx
    cases t with
    | node m l r =>
      rcases lt_trichotomy (j + 1) (h + 1) with hlt | heq | hgt
      · rw [todoAt_node (by omega)] at hx
        rcases mem_append.1 hx with hx | hx
        · exact ih hx
        · exact ih hx
      · obtain rfl : j = h := by omega
        rw [todoAt_self] at hx
        rcases m with _ | a | ⟨a, b, n, _ | _⟩
        · cases hx
        · cases hx
        · exact ⟨a, b, mem_singleton.1 hx⟩
        · cases hx
      · rw [todoAt_of_gt hgt] at hx
        cases hx

theorem mem_workFrom {x : AvailableJob B M} : ∀ {ts : List (ScanTree B M k)} {i : ℕ},
    1 ≤ i / D → 0 < D → x ∈ workFrom k D i ts → ∃ a b, x = .merge a b
  | [], _, _, _, hx => by cases hx
  | t :: ts, i, hi, hD, hx => by
    rcases mem_append.1 hx with hx | hx
    · split_ifs at hx
      · rw [show i / D = i / D - 1 + 1 by omega] at hx
        exact mem_todoAt_succ hx
      · cases hx
    · exact mem_workFrom (hi.trans (Nat.div_le_div_right (Nat.le_succ i))) hD hx

/-- The results of the second set meet their own jobs. -/
def AlignedOn (D n : ℕ) (t : ScanTree B M k) (ts : List (ScanTree B M k)) : Prop :=
  2 ≤ D ∨ ∀ x ∈ (workFrom k D 0 (t :: ts)).take n, ∃ b, x = .base b

theorem AlignedOn.isPrefix {m q₁ : ℕ} {u : ScanTree B M k} (hr : Running s D f q t ts)
    (hal : AlignedOn D n t ts) (ha : Answered k D m q js ts ts₁ res q₁) (hu : Filling f' (jobs u))
    (hdata : leafData (jobs u) = leafData (jobs t) ++ ds) :
    (workFrom k D 0 (t :: ts)).take n <+: workFrom k D 0 (u :: ts₁) := by
  have hD := hr.rep.pos
  rcases lt_or_ge 1 D with h2 | h1
  · have hother : ¬ (0 % D = D - 1 ∧ 0 / D ≤ k) := by rw [Nat.zero_mod]; omega
    rw [workFrom, if_neg hother, workFrom, if_neg hother, ha.workNext h2]
    exact take_prefix _ _
  · obtain rfl : D = 1 := by omega
    have hal := hal.resolve_left (by omega)
    have hworked : 0 % 1 = 1 - 1 ∧ 0 / 1 ≤ k := ⟨rfl, Nat.zero_le _⟩
    rw [workFrom, if_pos hworked, hr.filling.todoAt_zero] at hal ⊢
    rw [workFrom, if_pos hworked, hu.todoAt_zero, hdata, map_append, append_assoc]
    refine List.IsPrefix.trans ?_ (prefix_append _ _)
    -- the jobs of the older trees are merge jobs, so none of them is taken
    have hmerge : ∀ x ∈ workFrom k 1 1 ts, ∃ a b, x = .merge a b :=
      fun x => mem_workFrom (by simp) (by omega)
    rw [take_append] at hal ⊢
    have hnil : (workFrom k 1 1 ts).take
        (n - ((leafData (jobs t)).map (AvailableJob.base (M := M))).length) = [] := by
      refine eq_nil_iff_forall_not_mem.2 fun x hx => ?_
      obtain ⟨a, b, rfl⟩ := hmerge x (mem_of_mem_take hx)
      obtain ⟨b, hb⟩ := hal _ (mem_append_right _ hx)
      cases hb
    rw [hnil, append_nil]
    exact take_prefix _ _

/-- **An update that fills the current tree and goes on to the next one.** -/
theorem updateSets_large (hk : 0 < k) (hg : Good s D f q t ts) (hdata : 2 ^ k - f < data.length)
    (hmax : data.length ≤ 2 ^ k)
    (hjs : js.length = load k D 0 ts.length - q + min (2 * (data.length - (2 ^ k - f))) (workFrom k D 0 (t :: ts)).length)
    (hkind : ∀ b, baseKind b ≤ 2) :
    ∃ s' res f' q' t' ts', s.updateSets data js baseKind = .ok (s', res) ∧
      Good s' D f' q' t' ts' ∧ Updated k data js t ts res t' ts' ∧
      ∀ (val : B → M) op, (∀ a b c, op (op a b) c = op a (op b c)) →
        AlignedOn D (2 * (data.length - (2 ^ k - f))) t ts →
        js = (workFrom k D 0 ts ++ (workFrom k D 0 (t :: ts)).take
          (2 * (data.length - (2 ^ k - f)))).map (honest val op) → ValuesKept val op ts res ts' := by
  have hfilled := hg.filled
  have hle := hg.period.le
  obtain ⟨hnext, hnext'⟩ := hg.length_next
  have hj₁ : (js.take (load k D 0 ts.length - q)).length = load k D 0 ts.length - q := by
    rw [length_take]; omega
  have hd₁ : (data.take (2 ^ k - f)).length = 2 ^ k - f := by rw [length_take]; omega
  obtain ⟨s₁, res, ts₁, q₁, f₁, t₁, ts₂, hset₁, hr₁, ha₁, he₁⟩ := updateSet_running hk hg.toRunning
    (js.take (load k D 0 ts.length - q)) (data.take (2 ^ k - f)) (by omega) (by omega)
    (fun _ => by omega) hkind
  rcases he₁.older with ⟨h, -⟩ | ⟨hsum, rfl, u, rfl, hu, -, hud⟩
  · omega
  rw [if_pos hsum] at hr₁
  have hload : load k D 0 (u :: ts₁).length = load k D 0 (ts.length + 1) := by
    rw [length_cons, load_zero_succ, load_zero_succ, ha₁.next]
  have hj₂ : (js.drop (load k D 0 ts.length - q)).length =
      min (2 * (data.length - (2 ^ k - f))) (workFrom k D 0 (t :: ts)).length := by
    rw [length_drop]; omega
  have hd₂ : (data.drop (2 ^ k - f)).length = data.length - (2 ^ k - f) := length_drop ..
  obtain ⟨s₂, res₂, ts₃, q₂, f₂, t₂, ts₄, hset₂, hr₂, ha₂, he₂⟩ := updateSet_running hk hr₁
    (js.drop (load k D 0 ts.length - q)) (data.drop (2 ^ k - f)) (by rw [hload]; omega) (by omega)
    (fun h => by omega) hkind
  rcases he₂.older with ⟨hlt, rfl, rfl⟩ | ⟨h, -⟩
  swap
  · omega
  rw [if_neg (by omega)] at hr₂
  -- the second set has too few results to finish the last tree
  have hnone : res₂ = none := by
    rw [← Option.not_isSome_iff_eq_none, ha₂.emits]
    rintro ⟨-, hlen, heq⟩
    have hfull := load_full (k := k) hg.rep.pos (u :: ts₁).length 0 (by omega)
    rw [Nat.zero_div, Nat.sub_zero] at hfull
    omega
  subst hnone
  obtain ⟨s', hs', hr'⟩ := hr₂.finish res
  have hup₁ := Updated.of_set hg.seqs ha₁ he₁
  have hup₂ := Updated.of_set hr₁.seqs ha₂ he₂
  refine ⟨s', res, _, _, t₂, ts₄, ?_, ⟨hr', ?_⟩, ⟨?_, hup₁.chunk, ?_⟩, ?_⟩
  · rw [updateSets]
    rw [hg.toRunning.space_eq, hg.toRunning.length_work, hset₁, ok_bind]
    dsimp only
    rw [hset₂]
    exact hs'
  · have hleft := ha₂.left
    have hub := load_succ_le (k := k) hg.rep.pos (u :: ts₁).length 0
    rw [Nat.zero_div, Nat.sub_zero] at hub
    omega
  · have h₁ := hup₁.data
    have h₂ := hup₂.data
    rw [← take_append_drop (2 ^ k - f) data, ← append_assoc, h₁, append_assoc, h₂]
    rfl
  · have hlen : (js.length : ℚ) = (js.take (load k D 0 ts.length - q)).length +
        (js.drop (load k D 0 ts.length - q)).length := by
      rw [← cast_add, ← length_append, take_append_drop]
    have hdlen : (data.length : ℚ) = (data.take (2 ^ k - f)).length + (data.drop (2 ^ k - f)).length := by
      rw [← cast_add, ← length_append, take_append_drop]
    rw [hup₂.counts, hup₁.counts, answered, answered, answered, hlen, hdlen]
    ext
    · simp only [Prod.fst_add, Prod.fst_sub]; simp; ring
    · simp only [Prod.snd_add, Prod.snd_sub]; simp; ring
  · intro val op hop hal hh hv
    have hwlen : (workFrom k D 0 ts).length = load k D 0 ts.length - q :=
      hg.period.length_workFrom hg.rep.pos
    rw [map_append] at hh
    have h₁ : js.take (load k D 0 ts.length - q) = (workFrom k D 0 ts).map (honest val op) := by
      rw [hh, take_left' (by rw [length_map, hwlen])]
    have h₂ : js.drop (load k D 0 ts.length - q) = ((workFrom k D 0 (t :: ts)).take
        (2 * (data.length - (2 ^ k - f)))).map (honest val op) := by
      rw [hh, drop_left' (by rw [length_map, hwlen])]
    obtain ⟨hv₁, hres⟩ := ha₁.values val op hop hv (by rw [h₁])
    have hpre := hal.isPrefix hg.toRunning ha₁ hu hud
    obtain ⟨hv₂, -⟩ := ha₂.values val op hop (he₁.values hv₁) (by rw [h₂]; exact hpre.map _)
    exact ⟨hv₂, hres⟩

/-! ## The step of a run -/

theorem allData_eq (t : ScanTree B M k) (ts : List (ScanTree B M k)) :
    allData t ts = (ts.map fun t => leafData (jobs t)).reverse.flatten ++ leafData (jobs t) := by
  rw [allData, allEntries, map_append, map_flatten, map_reverse, map_map]
  simp [Function.comp_def, ← leafData_eq]

theorem allData_alike (ht : Alike t t') (hs : List.Forall₂ Alike ts ts') : allData t' ts' = allData t ts := by
  have hmap : (ts'.map fun t => leafData (jobs t)) = ts.map fun t => leafData (jobs t) := by
    induction hs with
    | nil => rfl
    | cons hu _ ih => rw [map_cons, map_cons, hu.data, ih]
  rw [allData_eq, allData_eq, hmap, ht.data]

theorem Running.workForNextUpdate_small (hr : Running s D f q t ts) (hn : n ≤ 2 ^ k - f) :
    (s.workForNextUpdate n).flatten = (workFrom k D 0 ts).take (2 * n) := by
  have hw : work s.olderTrees (s.delay + 1) s.maxBaseJobs = workFrom k D 0 ts := hr.rep.work
  have hmin : min n (2 ^ k) = n := min_eq_left (hn.trans (sub_le ..))
  unfold workForNextUpdate
  dsimp only
  rw [hw, hr.space_eq, hr.rep.maxBaseJobs, hmin, if_neg (by omega)]
  split_ifs with h
  · rw [List.isEmpty_iff.1 h]; rfl
  · simp

theorem Running.workForNextUpdate_large (hr : Running s D f q t ts) (hn : 2 ^ k - f < n) (hmax : n ≤ 2 ^ k) :
    (s.workForNextUpdate n).flatten =
      workFrom k D 0 ts ++ (workFrom k D 0 (t :: ts)).take (2 * (n - (2 ^ k - f))) := by
  have hw : work s.olderTrees (s.delay + 1) s.maxBaseJobs = workFrom k D 0 ts := hr.rep.work
  have hw' : work s.trees (s.delay + 1) s.maxBaseJobs = workFrom k D 0 (t :: ts) :=
    hr.rep.work_next
  have hmin : min n (2 ^ k) = n := min_eq_left hmax
  have hfilter : ∀ xs ys : List (AvailableJob B M),
      ([xs, ys].filter fun v => !v.isEmpty).flatten = xs ++ ys := by
    rintro (_ | ⟨x, xs⟩) (_ | ⟨y, ys⟩) <;> simp
  unfold workForNextUpdate
  dsimp only
  rw [hw, hw', hr.space_eq, hr.rep.maxBaseJobs, hmin, if_pos hn, hfilter, mul_comm]

/-- **One update**: it succeeds when it brings as many results as there is work
    for it. -/
theorem update_good (hk : 0 < k) (hg : Good s D f q t ts) (hdata : data.length ≤ 2 ^ k) (js : List M)
    (hjs : js.length = (s.workForNextUpdate data.length).flatten.length) (hkind : ∀ b, baseKind b ≤ 2) :
    ∃ s' res f' q' t' ts', s.update data js baseKind = .ok (s', res) ∧
      Good s' D f' q' t' ts' ∧ Updated k data js t ts res t' ts' ∧
      ∀ (val : B → M) op, (∀ a b c, op (op a b) c = op a (op b c)) →
        AlignedOn D (2 * (data.length - (2 ^ k - f))) t ts →
        js = (s.workForNextUpdate data.length).flatten.map (honest val op) →
        ValuesKept val op ts res ts' := by
  obtain ⟨s₁, t₁, ts₁, hincr, hrep, hseq, halike, halikes⟩ := incrSequenceNo_flat hg.rep hg.seqs
  have hg₁ : Good s₁ D f q t₁ ts₁ :=
    { rep := hrep
      filled := hg.filled
      filling := (halike.filling f).2 hg.filling
      space := (halike.space f).2 hg.space
      period := hg.period.alike halikes
      seqs := hseq
      bound := by rw [← halikes.length_eq]; exact hg.bound }
  have hwork := workFrom_alike (D := D) halikes 0
  have hnext := workFrom_alike (D := D) (halikes.cons halike) 0
  have hupdate : s.update data js baseKind = s₁.updateSets data js baseKind := by
    rw [update, updateHelper, ensure_of (by rw [hg.rep.maxBaseJobs]; exact hdata), ok_bind]
    dsimp only
    rw [← hjs, checkJobs, if_neg (lt_irrefl _), ok_bind, hincr, ok_bind]
  have hback : ∀ {res t' ts'}, Updated k data js t₁ ts₁ res t' ts' → Updated k data js t ts res t' ts' := by
    rintro res t' ts' ⟨h₁, h₂, h₃⟩
    rw [allData_alike halike halikes] at h₁
    rw [countsOf_alike (halikes.cons halike)] at h₃
    exact ⟨h₁, h₂, h₃⟩
  rw [hupdate]
  rcases lt_or_ge (2 ^ k - f) data.length with hlt | hge
  · have hw := hg.toRunning.workForNextUpdate_large hlt hdata
    have hlen : (workFrom k D 0 ts).length = load k D 0 ts.length - q :=
      hg.period.length_workFrom hg.rep.pos
    obtain ⟨s', res, f', q', t', ts', hok, hg', hup, hval⟩ := updateSets_large hk hg₁ hlt hdata
      (by rw [hjs, hw, length_append, length_take, hnext, hlen, halikes.length_eq]) hkind
    refine ⟨s', res, f', q', t', ts', hok, hg', hback hup, fun val op hop hal hh hv => ?_⟩
    refine hval val op hop ?_ ?_ (values_alike halikes hv)
    · rcases hal with h2 | hal
      · exact Or.inl h2
      · refine Or.inr ?_
        rw [hnext]; exact hal
    · rw [hwork, hnext, hh, hw]
  · have hw := hg.toRunning.workForNextUpdate_small hge
    have hlen : (workFrom k D 0 ts).length = load k D 0 ts.length - q :=
      hg.period.length_workFrom hg.rep.pos
    obtain ⟨s', res, f', q', t', ts', hok, hg', hup, hval⟩ := updateSets_small hk hg₁ hge
      (by rw [hjs, hw, length_take, hlen, halikes.length_eq]) hkind
    refine ⟨s', res, f', q', t', ts', hok, hg', hback hup, fun val op hop _ hh hv => ?_⟩
    refine hval val op hop ?_ (values_alike halikes hv)
    rw [hwork, hh, hw]
    exact (List.take_prefix _ _).map _

end Sets

end MinaRust.ParallelScan
