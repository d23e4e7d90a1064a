/-
  The two halves of an update: completed jobs bring the older trees forward in their period
  (`Answered`), and new data fill the current tree (`Extended`).

  Both say what becomes of the data, their sequence numbers, the numbers of jobs and the
  values stored in the trees.
-/
import MinaRust.ParallelScan.Sequence

namespace MinaRust.ParallelScan

open List

variable {B M : Type} {k D : ℕ}

/-! ## Completed jobs -/

theorem workFrom_append : ∀ (ts us : List (ScanTree B M k)) (i : ℕ),
    workFrom k D i (ts ++ us) = workFrom k D i ts ++ workFrom k D (i + ts.length) us
  | [], us, i => rfl
  | t :: ts, us, i => by
    rw [cons_append, workFrom, workFrom_append ts us, workFrom, append_assoc,
      length_cons, show i + 1 + ts.length = i + (ts.length + 1) by omega]

theorem workFrom_resetMerges : ∀ (ts : List (ScanTree B M k)) (i : ℕ),
    workFrom k D i (resetMerges ts) = workFrom k D i ts
  | [], _ => rfl
  | t :: ts, i => by
    have ih := workFrom_resetMerges ts (i + 1)
    rw [resetMerges] at ih
    rw [resetMerges, map_cons, workFrom, workFrom, jobs_reweigh, ih]

theorem Busy.last (hD : 0 < D) : ∀ {ts : List (ScanTree B M k)}
    {u : ScanTree B M k} {i q : ℕ}, Busy k D i q (ts ++ [u]) →
    i + ts.length + 1 = (k + 1) * D → q < load k D i (ts.length + 1) →
    (i + ts.length) % D = D - 1 ∧ (i + ts.length) / D = k ∧ Shape k 0 (jobs u)
  | [], u, i, q, ⟨hu, _, _⟩, hlen, hq => by
    rw [length_nil] at hlen ⊢
    have hdiv : i / D ≤ k := div_le_of_lt (by omega)
    have hworked : i % D = D - 1 := by
      by_contra hw
      rw [length_nil, load, load, cap_of_other hw] at hq
      omega
    have hk : i / D = k := by
      have h := succ_div_of_worked hD hworked
      rw [hlen, Nat.mul_div_cancel _ hD] at h
      omega
    have hcap : cap k D i = 1 := by rw [cap_of_worked hworked hdiv, hk, Nat.sub_self, pow_zero]
    rw [length_nil, load, load] at hq
    rw [hk, show min q (cap k D i) = 0 by omega] at hu
    exact ⟨hworked, hk, hu⟩
  | t :: ts, u, i, q, ⟨_, _, hts⟩, hlen, hq => by
    rw [length_cons] at hlen hq ⊢
    rw [load] at hq
    have hfull := load_full (k := k) hD (ts.length + 1) (i + 1) (by omega)
    have hdiv : (i + 1) / D ≤ k := div_le_of_lt (by omega)
    have htwo : 2 ^ 1 ≤ 2 ^ (k + 1 - (i + 1) / D) := Nat.pow_le_pow_right (by omega) (by omega)
    have h := Busy.last hD hts (by omega) (by omega)
    rwa [show i + (ts.length + 1) = i + 1 + ts.length by omega]

theorem Busy.root_done : ∀ {ts : List (ScanTree B M k)}
    {u : ScanTree B M k} {i q : ℕ}, Busy k D i q (ts ++ [u]) →
    load k D i (ts.length + 1) ≤ q → (i + ts.length) % D = D - 1 → (i + ts.length) / D = k →
    Shape k 1 (jobs u)
  | [], u, i, q, ⟨hu, _, _⟩, hq, hw, hk => by
    rw [length_nil, Nat.add_zero] at hw hk
    have hcap : cap k D i = 1 := by rw [cap_of_worked hw hk.le, hk, Nat.sub_self, pow_zero]
    rw [length_nil, load] at hq
    rwa [hk, show min q (cap k D i) = 1 by omega] at hu
  | t :: ts, u, i, q, ⟨_, _, hts⟩, hq, hw, hk => by
    rw [length_cons] at hq hw hk
    rw [load] at hq
    rw [show i + (ts.length + 1) = i + 1 + ts.length by omega] at hw hk
    exact root_done hts (by omega) hw hk

def entriesOf (ts : List (ScanTree B M k)) : List (List (B × ℕ)) :=
  ts.map fun t => leafEntries (jobs t)

theorem entriesOf_resetMerges (ts : List (ScanTree B M k)) : entriesOf (resetMerges ts) = entriesOf ts := by
  rw [entriesOf, resetMerges, map_map]
  exact map_congr_left fun t _ => congrArg leafEntries (jobs_reweigh .merge t)

/-- What completed jobs `js` do to the older trees `ts`, `q` results into a
    period. -/
structure Answered (k D n q : ℕ) (js : List M) (ts ts' : List (ScanTree B M k))
    (res : Option (M × List B)) (q' : ℕ) : Prop where
  period : Period k D q' ts'
  left : load k D 0 ts'.length - q' = load k D 0 ts.length - q - js.length
  next : load k D 1 ts'.length = load k D 1 ts.length
  emits : res.isSome ↔ 0 < js.length ∧ ts.length = (k + 1) * D ∧ q + js.length = load k D 0 ts.length
  kept : res = none → entriesOf ts' = entriesOf ts
  emitted : ∀ v ds, res = some (v, ds) → ∃ u ∈ ts, ds = (leafEntries (jobs u)).map Prod.fst ∧
    entriesOf ts = entriesOf ts' ++ [leafEntries (jobs u)]
  dated : (∀ t ∈ ts, Dated (jobs t) ∧ ∃ e ∈ leafEntries (jobs t), e.2 ≤ n) → ∀ t ∈ ts', Dated (jobs t)
  counts : countsOf ts' = countsOf ts + answered js.length res.isSome -
    (if res.isSome then (0, 2 ^ (k + 1) - 1) else 0)
  workNext : 2 ≤ D → workFrom k D 1 ts' = workFrom k D 1 ts
  values : ∀ (val : B → M) (op : M → M → M), (∀ a b c, op (op a b) c = op a (op b c)) →
    (∀ t ∈ ts, Values val op (jobs t)) → js <+: (workFrom k D 0 ts).map (honest val op) →
    (∀ t ∈ ts', Values val op (jobs t)) ∧ ∀ v ds, res = some (v, ds) → foldData val op ds = some v

section Answered
variable {n q : ℕ} {js : List M} {ts ts' : List (ScanTree B M k)}

theorem Handed.dated {i : ℕ} (hs : Handed k D n i q js ts ts')
    (hd : ∀ t ∈ ts, Dated (jobs t) ∧ ∃ e ∈ leafEntries (jobs t), e.2 ≤ n) : ∀ t ∈ ts', Dated (jobs t) :=
  hs.seq (P := fun m es => ∃ e ∈ es, e.2 ≤ m) (fun t ht => (hd t ht).1) fun t ht => (hd t ht).2

theorem Answered.nil (hp : Period k D q ts) : Answered k D n q [] ts ts none q where
  period := hp
  left := by simp
  next := rfl
  emits := by simp
  kept _ := rfl
  emitted _ _ h := by cases h
  dated h t ht := (h t ht).1
  counts := by ext <;> simp [answered]
  workNext _ := rfl
  values _ _ _ hv _ := ⟨hv, fun _ _ h => by cases h⟩

theorem mem_resetMerges {t : ScanTree B M k} (ht : t ∈ resetMerges ts) : ∃ u ∈ ts, jobs t = jobs u := by
  obtain ⟨u, hu, rfl⟩ := mem_map.1 ht
  exact ⟨u, hu, jobs_reweigh .merge u⟩

theorem Answered.stay {q' : ℕ} {us : List (ScanTree B M k)} (hD : 0 < D) (hp : Period k D q ts)
    (hne : 0 < js.length) (hs : Handed k D n 0 q js ts ts') (hjs : q + js.length ≤ load k D 0 ts.length)
    (hemit : ¬ (ts.length = (k + 1) * D ∧ q + js.length = load k D 0 ts.length)) (hlen : us.length = ts.length)
    (hperiod : Period k D q' us) (hleft : q' = q + js.length) (hentries : entriesOf us = entriesOf ts')
    (hcounts : countsOf us = countsOf ts') (hwork : workFrom k D 1 us = workFrom k D 1 ts')
    (hmem : ∀ t ∈ us, ∃ u ∈ ts', jobs t = jobs u) : Answered k D n q js ts us none q' := by
  have hbusy := hp.busy (by omega)
  have hpos : 0 + ts.length ≤ (k + 1) * D := by rw [Nat.zero_add]; exact hp.length
  exact
    { period := hperiod
      left := by rw [hlen]; omega
      next := by rw [hlen]
      emits := iff_of_false (by simp) fun h => hemit h.2
      kept := fun _ => hentries.trans hs.entries
      emitted := fun _ _ h => by cases h
      dated := fun hd t ht => by
        obtain ⟨u, hu, hj⟩ := hmem t ht
        rw [hj]; exact hs.dated hd u hu
      counts := by
        rw [hcounts, hs.counts hD hbusy hpos hjs]
        simp only [answered, Option.isSome_none, Bool.false_eq_true, if_false]
        rw [if_neg (by omega), sub_zero, sub_zero]
      workNext := fun h2 => hwork.trans (hs.workFrom_next h2)
      values := fun val op hop hv hh => by
        refine ⟨fun t ht => ?_, fun _ _ h => by cases h⟩
        obtain ⟨u, hu, hj⟩ := hmem t ht
        rw [hj]; exact hs.values hop hbusy hpos hv hh u hu }

theorem Answered.middle (hD : 0 < D) (hp : Period k D q ts) (hne : 0 < js.length)
    (hs : Handed k D n 0 q js ts ts') (hjs : q + js.length < load k D 0 ts.length) :
    Answered k D n q js ts ts' none (q + js.length) := by
  have hlen := hs.length_eq
  refine .stay hD hp hne hs hjs.le (by omega) hlen ?_ rfl rfl rfl rfl fun t ht => ⟨t, ht, rfl⟩
  exact ⟨hlen ▸ hp.length, by rw [hlen]; omega, fun _ => hs.busy, fun h => by rw [hlen] at h; omega⟩

theorem Answered.done (hD : 0 < D) (hp : Period k D q ts) (hne : 0 < js.length)
    (hs : Handed k D n 0 q js ts ts') (hjs : q + js.length = load k D 0 ts.length)
    (hlt : ts.length < (k + 1) * D) : Answered k D n q js ts (resetMerges ts') none (load k D 0 ts.length) := by
  have hlen : (resetMerges ts').length = ts.length := by rw [length_resetMerges, hs.length_eq]
  have hfinish : Busy k D 1 0 (resetMerges ts') := by
    refine hs.busy.finish hD ?_ ?_
    · rw [hs.length_eq]; omega
    · rw [hs.length_eq]; omega
  refine .stay hD hp hne hs hjs.le (by omega) hlen ?_ hjs.symm (entriesOf_resetMerges ts')
    (countsOf_resetMerges ts') (workFrom_resetMerges ts' 1) fun t => mem_resetMerges
  exact ⟨by omega, by rw [hlen], fun h => by rw [hlen] at h; omega, fun _ => ⟨by omega, hfinish⟩⟩

theorem Answered.emit (hD : 0 < D) (hp : Period k D q ts) (hne : 0 < js.length)
    {init : List (ScanTree B M k)} {last : ScanTree B M k} {v : M}
    (hs : Handed k D n 0 q js ts (init ++ [last])) (hjs : q + js.length = load k D 0 ts.length)
    (hfull : ts.length = (k + 1) * D) (hv : js.getLast? = some v) :
    Answered k D n q js ts (resetMerges init) (some (v, leafData (jobs last)))
      (load k D 0 init.length) := by
  have hlen₁ : init.length + 1 = ts.length := by
    have := hs.length_eq
    rwa [length_append] at this
  have hlen : (resetMerges init).length = init.length := length_resetMerges init
  have hbusy := hp.busy (by omega)
  have hsnoc := load_snoc (k := k) (D := D) init.length 0
  have hsnoc₁ := load_snoc (k := k) (D := D) init.length 1
  rw [Nat.zero_add] at hsnoc
  have hcap : cap k D (1 + init.length) = 0 := by
    rw [cap, if_neg]
    rintro ⟨-, h⟩
    rw [show 1 + init.length = (k + 1) * D by omega, Nat.mul_div_cancel _ hD] at h
    omega
  obtain ⟨ts₀, u, rfl⟩ : ∃ ts₀ u, ts = ts₀ ++ [u] := by
    rcases eq_nil_or_concat' ts with h | h
    · rw [h, length_nil] at hlen₁; omega
    · exact h
  rw [length_append, length_singleton] at *
  obtain ⟨hworked, hdiv, hshape⟩ := hbusy.last hD (by omega) (by omega)
  rw [Nat.zero_add] at hworked hdiv
  have hsplit : entriesOf init = entriesOf ts₀ ∧ leafEntries (jobs last) = leafEntries (jobs u) := by
    have h := hs.entries
    rw [map_append, map_append, map_singleton] at h
    have h' := append_inj' h rfl
    exact ⟨h'.1, by simpa using h'.2⟩
  have hdata : leafData (jobs last) = leafData (jobs u) := by
    rw [leafData_eq, leafData_eq, hsplit.2]
  have hts₀ : ts₀.length = init.length := by omega
  have hload : q + js.length = load k D 0 init.length + cap k D init.length := by
    rw [← hsnoc, ← hts₀]; exact hjs
  have hlastDone : ParallelScan.counts (jobs last) = (0, 2 ^ (k + 1) - 1) := by
    refine (Shape.allDone (Busy.root_done hs.busy ?_ ?_ ?_)).counts
    · rw [hsnoc]; omega
    · rw [Nat.zero_add, ← hts₀]; exact hworked
    · rw [Nat.zero_add, ← hts₀]; exact hdiv
  have hmem : ∀ t ∈ resetMerges init, ∃ w ∈ init ++ [last], jobs t = jobs w := by
    intro t ht
    obtain ⟨w, hw, hj⟩ := mem_resetMerges ht
    exact ⟨w, mem_append_left _ hw, hj⟩
  have hpast : ∀ (i : ℕ) (w : ScanTree B M k), i = (k + 1) * D → workFrom k D i [w] = [] := by
    rintro i w rfl
    rw [workFrom, if_neg]
    · rfl
    · rintro ⟨-, h⟩
      rw [Nat.mul_div_cancel _ hD] at h
      omega
  have hjs' : q + js.length = load k D 0 (ts₀ ++ [u]).length := by
    rw [length_append]; exact hjs
  have hfull' : (ts₀ ++ [u]).length = (k + 1) * D := by
    rw [length_append]; exact hfull
  exact
    { period := ⟨by omega, by rw [hlen], fun h => by rw [hlen] at h; omega,
        fun _ => ⟨by omega, hs.busy.of_append.finish hD (by omega) (by omega)⟩⟩
      left := by rw [hlen]; omega
      next := by
        rw [hlen, length_append, length_singleton, hts₀, hsnoc₁, hcap, Nat.add_zero]
      emits := ⟨fun _ => ⟨hne, hfull', hjs'⟩, fun _ => rfl⟩
      kept := fun h => by cases h
      emitted := fun v' ds h => by
        cases h
        refine ⟨u, by simp, by rw [hdata, leafData_eq], ?_⟩
        rw [entriesOf_resetMerges, hsplit.1, entriesOf, entriesOf, map_append, map_singleton]
      dated := fun hd t ht => by
        obtain ⟨w, hw, hj⟩ := hmem t ht
        rw [hj]; exact hs.dated hd w hw
      counts := by
        have hc := hs.counts hD hbusy (by omega) (by omega)
        rw [countsOf_append, countsOf_cons, countsOf_nil, add_zero, hlastDone] at hc
        rw [countsOf_resetMerges, eq_sub_of_add_eq hc]
        simp only [answered, Option.isSome_some, if_true]
        rw [if_pos ⟨hne, by omega, hjs'⟩]
      workNext := fun h2 => by
        have h := hs.workFrom_next h2
        rw [workFrom_append, workFrom_append, hpast _ last (by omega),
          hpast _ u (by omega), append_nil, append_nil] at h
        rw [workFrom_resetMerges, workFrom_append, hpast _ u (by omega), append_nil, h]
      values := fun val op hop hval hh => by
        refine ⟨fun t ht => ?_, fun v' ds h => ?_⟩
        · obtain ⟨w, hw, hj⟩ := hmem t ht
          rw [hj]; exact hs.values hop hbusy (by omega) hval hh w hw
        · cases h
          obtain ⟨x, hx, hfold⟩ := honest_root hop hshape (hval u (by simp))
          rw [hdata, hfold]
          have hall : js = (workFrom k D 0 (ts₀ ++ [u])).map (honest val op) := by
            refine hh.eq_of_length ?_
            rw [length_map, hbusy.length_workFrom]
            omega
          have hjob : workFrom k D (0 + ts₀.length) [u] = [x] := by
            rw [Nat.zero_add, workFrom, if_pos ⟨hworked, hdiv.le⟩, hdiv, hx]; rfl
          rw [hall, workFrom_append, hjob, map_append, map_singleton] at hv
          simpa using hv }

theorem addMergeJobs_answered {s : ParallelScan B M} {t : ScanTree B M k} (hk : 0 < k)
    (hs : Represents s D t ts) (hp : Period k D q ts) (js : List M) (hjs : q + js.length ≤ load k D 0 ts.length) :
    ∃ ts' res q', s.addMergeJobs js = .ok ({ s with olderTrees := ts'.map flat }, res) ∧
      Answered k D s.currJobSeqNo q js ts ts' res q' := by
  rcases eq_or_ne js [] with rfl | hne
  · refine ⟨ts, none, q, ?_, .nil hp⟩
    rw [← hs.older]; rfl
  · have hpos : 0 < js.length := length_pos_iff.2 hne
    obtain ⟨ts', hand, ⟨hlt, heq⟩ | ⟨hall, hlt, heq⟩ | ⟨hall, hfull, init, last, v, rfl, hv, heq⟩⟩ :=
      addMergeJobs_flat hk hs hp hne hjs
    · exact ⟨_, _, _, heq, .middle hs.pos hp hpos hand hlt⟩
    · exact ⟨_, _, _, heq, .done hs.pos hp hpos hand hall hlt⟩
    · exact ⟨_, _, _, heq, .emit hs.pos hp hpos hand hall hfull hv⟩

end Answered

/-! ## New data -/

theorem sum_foldKinds (baseKind : B → ℕ) : ∀ (bs : List B) (acc : List (ℕ × ℕ)),
    ((foldKinds baseKind bs acc).map Prod.snd).sum = (acc.map Prod.snd).sum + bs.length
  | [], acc => by rw [foldKinds]; rfl
  | b :: bs, acc => by
    rw [foldKinds, sum_foldKinds baseKind bs, length_cons]
    rcases eq_nil_or_concat' acc with rfl | ⟨init, last, rfl⟩
    · simp only [getLast?_nil, nil_append, map_cons, map_nil, sum_cons, sum_nil]
      omega
    · simp only [getLast?_append, getLast?_singleton, Option.some_or, dropLast_concat]
      split_ifs <;> simp only [map_append, map_cons, map_nil, sum_append, sum_cons, sum_nil] <;> omega

theorem kinds_foldKinds {baseKind : B → ℕ} {P : ℕ → Prop} (hP : ∀ b, P (baseKind b)) :
    ∀ (bs : List B) (acc : List (ℕ × ℕ)), (∀ e ∈ acc, P e.1) → ∀ e ∈ foldKinds baseKind bs acc, P e.1
  | [], acc, h => by rw [foldKinds]; exact h
  | b :: bs, acc, h => by
    refine kinds_foldKinds hP bs _ ?_
    have hsnoc : ∀ (xs : List (ℕ × ℕ)) (x : ℕ × ℕ), (∀ e ∈ xs, P e.1) → P x.1 → ∀ e ∈ xs ++ [x], P e.1 := by
      intro xs x hxs hx e he
      rcases mem_append.1 he with he | he
      · exact hxs e he
      · rw [mem_singleton.1 he]; exact hx
    split
    · next last hlast =>
      split_ifs
      · exact hsnoc _ _ (fun e he => h e (dropLast_subset _ he))
          (h last (mem_of_getLast? hlast))
      · exact hsnoc _ _ h (hP b)
    · exact hsnoc _ _ h (hP b)

theorem logKinds_ok {baseKind : B → ℕ} (hkind : ∀ b, baseKind b ≤ 2) {maxBaseJobs ntrees : ℕ}
    (hn : 0 < ntrees) {bases : List B} (hlen : bases.length ≤ maxBaseJobs) :
    logKinds baseKind maxBaseJobs ntrees bases = .ok () := by
  have hsum := sum_foldKinds baseKind bases []
  rw [map_nil, sum_nil, Nat.zero_add] at hsum
  have hP : ∀ n ≤ 2, n ∈ [0, 1, 2, 10] := by
    intro n hn
    interval_cases n <;> simp
  have hkinds := kinds_foldKinds (fun b => hP _ (hkind b)) bases [] (by simp)
  rw [logKinds, checkedSub_of_le hn]
  dsimp only
  rw [hsum]
  split_ifs
  · rw [checkedSub_of_le hlen, ok_bind]
    refine ensure_of fun e he => ?_
    rcases mem_append.1 he with he | he
    · exact hkinds e he
    · rw [mem_singleton.1 he]; simp
  · exact ensure_of hkinds

theorem Filling.seqAll {P : ℕ → Prop} : ∀ {h : ℕ} {t : JobTree B M h}, Filling 0 t → SeqAll P t := by
  intro h
  induction h with
  | zero =>
    intro t ht
    cases t with
    | leaf b =>
      rcases ht with ⟨-, rfl⟩ | ⟨h, -⟩
      · intro r hr; cases hr
      · omega
  | succ h ih =>
    intro t ht
    cases t with
    | node m l r =>
      obtain ⟨rfl, hl, hr⟩ := ht
      rw [Nat.zero_sub] at hr
      refine ⟨?_, ih hl, ih hr⟩
      intro r hr; cases hr

theorem Filling.values {val : B → M} {op : M → M → M} : ∀ {h f : ℕ} {t : JobTree B M h},
    Filling f t → Values val op t := by
  intro h
  induction h with
  | zero => intro f t _; cases t; trivial
  | succ h ih =>
    intro f t ht
    cases t with
    | node m l r =>
      obtain ⟨rfl, hl, hr⟩ := ht
      exact ⟨ih hl, ih hr, trivial⟩

/-- What new data do to the trees: they fill the current tree, which becomes an
    older one when it is full. -/
structure Extended (n : ℕ) (ds : List B) (f : ℕ) (t : ScanTree B M k)
    (ts : List (ScanTree B M k)) (f' : ℕ) (t' : ScanTree B M k)
    (ts' : List (ScanTree B M k)) : Prop where
  filled : f' < 2 ^ k
  filling : Filling f' (jobs t')
  space : SpaceWeighted f' t'
  older : f + ds.length < 2 ^ k ∧ f' = f + ds.length ∧ ts' = ts ∨
    f + ds.length = 2 ^ k ∧ f' = 0 ∧ ∃ u, ts' = u :: ts ∧ Filling (2 ^ k) (jobs u) ∧
      Weighted 0 0 u ∧ leafData (jobs u) = leafData (jobs t) ++ ds
  entries : allEntries t' ts' = allEntries t ts ++ ds.map fun d => (d, n)
  counts : countsOf (t' :: ts') = countsOf (t :: ts) + ((ds.length : ℚ), 0)
  dated : (∀ u ∈ t :: ts, Dated (jobs u)) → ∀ u ∈ t' :: ts', Dated (jobs u)

variable {t : ScanTree B M k} {ts : List (ScanTree B M k)}

theorem Extended.nil {n f : ℕ} (hf : f < 2 ^ k) (ht : Filling f (jobs t)) (hw : SpaceWeighted f t) :
    Extended n [] f t ts f t ts where
  filled := hf
  filling := ht
  space := hw
  older := Or.inl ⟨hf, rfl, rfl⟩
  entries := by simp
  counts := by ext <;> simp
  dated h := h

theorem BaseStep.dated {f n : ℕ} {ds : List B} {t' : ScanTree B M k} (hs : BaseStep f n ds t t')
    (hne : ds ≠ []) (ht : Dated (jobs t)) : Dated (jobs t') := by
  obtain ⟨d, hd⟩ := exists_mem_of_ne_nil ds hne
  refine hs.seq _ ⟨(d, n), ?_, le_rfl⟩ (SeqAll.imp ?_ ht)
  · rw [hs.entries]
    exact mem_append_right _ (mem_map.2 ⟨d, hd, rfl⟩)
  · rintro m ⟨e, he, hle⟩
    refine ⟨e, ?_, hle⟩
    rw [hs.entries]
    exact mem_append_left _ he

theorem allEntries_cons (t u : ScanTree B M k) (ts : List (ScanTree B M k)) :
    allEntries t (u :: ts) = allEntries u ts ++ leafEntries (jobs t) := by
  simp [allEntries]

theorem addData_extended {s : ParallelScan B M} {f : ℕ} (hk : 0 < k) (hs : Represents s D t ts) (hf : f < 2 ^ k)
    (ht : Filling f (jobs t)) (hw : SpaceWeighted f t) {ds : List B} (hds : f + ds.length ≤ 2 ^ k)
    {baseKind : B → ℕ} (hkind : ∀ b, baseKind b ≤ 2) :
    ∃ f' t' ts', s.addData ds baseKind = .ok { s with currTree := flat t', olderTrees := ts'.map flat } ∧
      Extended s.currJobSeqNo ds f t ts f' t' ts' := by
  rcases eq_or_ne ds [] with rfl | hne
  · refine ⟨f, t, ts, ?_, .nil hf ht hw⟩
    rw [← hs.older, ← hs.curr]; rfl
  obtain ⟨u, hup, step⟩ := update_base (n := s.currJobSeqNo) hk ht hw hds
  have hspace : (flat t).availableSpace = 2 ^ k - f := by
    rw [availableSpace_flat, hw.baseWeight_eq hf.le]
  have hdata : leafData (jobs u) = leafData (jobs t) ++ ds := by
    rw [leafData_eq, step.entries, map_append, leafData_eq]
    simp [Function.comp_def]
  have hlog : logKinds baseKind (2 ^ k) s.trees.length (leafData (jobs u)) = .ok () := by
    refine logKinds_ok hkind (by rw [trees, length_cons]; omega) ?_
    rw [step.filling.length_leafData hds]; exact hds
  have hstart : s.addData ds baseKind = (if ds.length = 2 ^ k - f then do
        let tree ← (flat u).resetWeights .both
        .ok { s with currTree := Tree.createTree k, olderTrees := tree :: ts.map flat }
      else do
        let tree ← (flat u).resetWeights .merge
        .ok { s with currTree := tree }) := by
    unfold addData
    rw [if_neg (by simpa using hne)]
    dsimp only
    rw [hs.curr, hspace, ensure_of (by omega), ok_bind, hs.maxBaseJobs, ceilLog2_two_pow, hup, ok_bind]
    rw [baseJobs_flat, hlog, hs.older]
    split_ifs
    · rw [resetWeights_flat]; rfl
    · rw [resetWeights_flat]; rfl
  by_cases hfull : ds.length = 2 ^ k - f
  · have hsum : f + ds.length = 2 ^ k := by omega
    have hfill := step.filling
    rw [hsum] at hfill
    have hempty := filling_emptyTree (B := B) (M := M) k
    have hju := jobs_reweigh .both u
    refine ⟨0, emptyTree k, (reweigh .both u).1 :: ts, ?_, ?_⟩
    · rw [hstart, if_pos hfull, resetWeights_flat, createTree_eq]
      rfl
    · exact
        { filled := Nat.two_pow_pos k
          filling := hempty
          space := spaceWeighted_emptyTree k
          older := Or.inr ⟨hsum, rfl, _, rfl, by rw [hju]; exact hfill,
            (weighted_reweigh_both hfill).1, by rw [hju, hdata]⟩
          entries := by
            rw [allEntries_cons, hempty.entries_zero, append_nil, allEntries, hju,
              step.entries, ← append_assoc]
            rfl
          counts := by
            rw [countsOf_cons, countsOf_cons, countsOf_cons, hempty.counts, hju, hfill.counts,
              ht.counts, ← hsum]
            ext
            · push_cast; simp; ring
            · simp
          dated := by
            intro hd
            rw [forall_mem_cons] at hd
            rw [forall_mem_cons, forall_mem_cons]
            refine ⟨hempty.seqAll, ?_, hd.2⟩
            rw [hju]; exact step.dated hne hd.1 }
  · have hlt : f + ds.length < 2 ^ k := by omega
    have hju := jobs_reweigh .merge u
    refine ⟨f + ds.length, (reweigh .merge u).1, ts, ?_, ?_⟩
    · rw [hstart, if_neg hfull, resetWeights_flat, ok_bind, ← hs.older]
    · exact
        { filled := hlt
          filling := by rw [hju]; exact step.filling
          space := spaceWeighted_reweigh step.space
          older := Or.inl ⟨hlt, rfl, rfl⟩
          entries := by rw [allEntries, hju, step.entries, ← append_assoc]; rfl
          counts := by
            rw [countsOf_cons, countsOf_cons, hju, step.filling.counts, ht.counts]
            ext
            · push_cast; simp; ring
            · simp
          dated := by
            intro hd
            rw [forall_mem_cons] at hd
            rw [forall_mem_cons]
            refine ⟨?_, hd.2⟩
            rw [hju]; exact step.dated hne hd.1 }

end MinaRust.ParallelScan
