/-
  What `update` and `reset_weights` do to a tree: results reach the first jobs to be done at
  height `j`, data the next leaves of the current tree, and a reset gives a tree with nothing
  done at height `j` the weights for that height.
-/
import MinaRust.ParallelScan.Shape

namespace MinaRust.ParallelScan

open List

variable {B M : Type} {h : ℕ}

def Base.Job.entry : Base.Job B → List (B × ℕ)
  | .full r => [(r.job, r.seqNo)]
  | .empty => []

def leafEntries (t : JobTree B M h) : List (B × ℕ) := leafRow Base.Job.entry t

def SeqAll (P : ℕ → Prop) (t : JobTree B M h) : Prop :=
  t.All (fun b => ∀ r, b = .full r → P r.seqNo) (fun m => ∀ r, m = .full r → P r.seqNo)

theorem slices_of_isPrefix {α : Type} {js xs ys : List α} (hjs : js <+: xs ++ ys) :
    js.take xs.length <+: xs ∧ js.drop xs.length <+: ys := by
  constructor
  · refine prefix_of_prefix_length_le ((List.take_prefix _ _).trans hjs)
      (prefix_append _ _) ?_
    rw [length_take]; exact Nat.min_le_left ..
  · have := hjs.drop xs.length
    rwa [drop_left] at this

theorem leafData_eq : {h : ℕ} → (t : JobTree B M h) → leafData t = (leafEntries t).map Prod.fst
  | 0, .leaf b => by
    cases b <;> rfl
  | _ + 1, .node m l r => by
    have hl := leafData_eq l
    have hr := leafData_eq r
    rw [leafData, leafEntries] at hl hr
    rw [leafData, leafEntries, leafRow_node, leafRow_node, hl, hr, map_append]

/-! ## Inner nodes -/

theorem addMerges_nil (L n d : ℕ) (lens : WeightLens) (m : Merge M) :
    addMerges L n lens ([] : List (Job B M)) d m = .ok (m, none) := by
  unfold addMerges
  split_ifs <;> rfl

/-- The job one level above the worked one after more results have come. -/
def nextJob (n : ℕ) : Merge.Job M → List M → Merge.Job M
  | .empty, [a] => .part a
  | .empty, [a, b] => .full ⟨a, b, n, .todo⟩
  | .part a, [b] => .full ⟨a, b, n, .todo⟩
  | m, _ => m

variable {n : ℕ} {js : List M}

variable {c : ℕ}

theorem PairJob.next {m : Merge.Job M} (hm : PairJob c m) (hjs : c + js.length ≤ 2) :
    PairJob (c + js.length) (nextJob n m js) := by
  rcases hm with ⟨rfl, rfl⟩ | ⟨rfl, x, rfl⟩ | ⟨rfl, hm⟩
  · rcases js with _ | ⟨a, _ | ⟨b, _ | ⟨e, js⟩⟩⟩
    · exact Or.inl ⟨rfl, rfl⟩
    · exact Or.inr (Or.inl ⟨rfl, a, rfl⟩)
    · exact Or.inr (Or.inr ⟨rfl, a, b, n, rfl⟩)
    · simp only [length_cons] at hjs; omega
  · rcases js with _ | ⟨a, _ | ⟨b, js⟩⟩
    · exact Or.inr (Or.inl ⟨rfl, x, rfl⟩)
    · exact Or.inr (Or.inr ⟨rfl, x, a, n, rfl⟩)
    · simp only [length_cons] at hjs; omega
  · rcases js with _ | ⟨a, js⟩
    · obtain ⟨a, b, k, rfl⟩ := hm
      exact Or.inr (Or.inr ⟨rfl, a, b, k, rfl⟩)
    · simp only [length_cons] at hjs; omega

variable {L : ℕ}

variable {d : ℕ} {m : Merge M}

theorem addMerges_pair (hd : d + 1 = L) (hm : PairJob c m.job) (hw₁ : m.weight.1.merge = 1 - min c 1)
    (hw₂ : m.weight.2.merge = 1 - (c - 1)) (hjs : c + js.length ≤ 2) :
    ∃ m', addMerges L n .merge (js.map (Job.merge (B := B))) d m = .ok (m', none) ∧
      m'.job = nextJob n m.job js ∧ m'.weight.1.merge = 1 - min (c + js.length) 1 ∧
      m'.weight.2.merge = 1 - (c + js.length - 1) := by
  obtain ⟨⟨⟨b₁, w₁⟩, b₂, w₂⟩, job⟩ := m
  subst hw₁ hw₂
  rcases js with _ | ⟨a, js⟩
  · exact ⟨_, addMerges_nil .., by cases job <;> rfl, rfl, rfl⟩
  · have hcond : 0 < L ∧ d = L - 1 := by omega
    unfold addMerges
    rw [if_pos hcond]
    simp only [length_cons] at hjs
    rcases hm with ⟨rfl, rfl⟩ | ⟨rfl, x, rfl⟩ | ⟨rfl, hm⟩
    · rcases js with _ | ⟨b, _ | ⟨e, js⟩⟩
      · exact ⟨_, rfl, rfl, rfl, rfl⟩
      · exact ⟨_, rfl, rfl, rfl, rfl⟩
      · simp only [length_cons] at hjs; omega
    · rcases js with _ | ⟨b, js⟩
      · exact ⟨_, rfl, rfl, rfl, rfl⟩
      · simp only [length_cons] at hjs; omega
    · omega

theorem addMerges_above (hd : d + 1 < L) (lens : WeightLens) (m : Merge M) (js : List (Job B M)) :
    addMerges L n lens js d m = .ok (⟨(lens.set m.weight.1 (lens.get m.weight.1 -
        min js.length (lens.get m.weight.1)), lens.set m.weight.2 (lens.get m.weight.2 -
        min (js.length - min js.length (lens.get m.weight.1)) (lens.get m.weight.2))), m.job⟩,
      none) := by
  rcases js with _ | ⟨a, js⟩
  · rw [addMerges_nil]
    cases lens <;> simp [WeightLens.get, WeightLens.set]
  · unfold addMerges
    rw [if_neg (by omega), if_neg (by omega), if_pos (by omega)]
    simp [ok_bind]

theorem addMerges_self (hm : c = 0 ∧ m.job.IsTodo ∨ c = 1 ∧ m.job.IsDone) (hjs : c + js.length ≤ 1) :
    ∃ m', addMerges d n .merge (js.map (Job.merge (B := B))) d m =
        .ok (m', if d = 0 then js.head? else none) ∧
      (c + js.length = 0 ∧ m'.job.IsTodo ∨ c + js.length = 1 ∧ m'.job.IsDone) ∧
      (c + js.length = 0 → m'.weight = m.weight) ∧
      (∀ r, m'.job = .full r → ∃ r', m.job = .full r' ∧ r.seqNo = r'.seqNo ∧
        r.left = r'.left ∧ r.right = r'.right) := by
  rcases js with _ | ⟨a, js⟩
  · refine ⟨m, ?_, hm, fun _ => rfl, fun r hr => ⟨r, hr, rfl, rfl, rfl⟩⟩
    rw [map_nil, addMerges_nil]
    split_ifs <;> rfl
  · simp only [length_cons] at hjs ⊢
    obtain rfl : js = [] := length_eq_zero_iff.1 (by omega)
    obtain ⟨rfl, x, y, k, hjob⟩ : c = 0 ∧ m.job.IsTodo := by
      rcases hm with hm | ⟨rfl, -⟩
      · exact hm
      · omega
    have hcond : ¬ (0 < d ∧ d = d - 1) := by omega
    unfold addMerges
    simp only [map_cons, map_nil, hjob, if_true]
    split_ifs
    all_goals exact ⟨_, rfl, Or.inr ⟨rfl, x, y, k, rfl⟩, fun h => by simp at h, fun r hr => by
      cases hr; exact ⟨_, rfl, rfl, rfl, rfl⟩⟩

/-! ## Values -/

section Values
variable {val : B → M} {op : M → M → M}

theorem honest_root (hop : ∀ a b c, op (op a b) c = op a (op b c)) :
    ∀ {h : ℕ} {t : JobTree B M h}, Shape h 0 t → Values val op t →
      ∃ x, todoAt h t = [x] ∧ foldData val op (leafData t) = some (honest val op x) := by
  intro h t ht hv
  cases t with
  | leaf b =>
    rcases ht with ⟨-, job, n, rfl⟩ | ⟨h, -⟩
    · exact ⟨.base job, by rw [todoAt_leaf]; rfl, by rw [leafData]; rfl⟩
    · omega
  | node m l r =>
    obtain ⟨-, -, ⟨-, a, b, n, rfl⟩ | ⟨h, -⟩⟩ := (shape_self rfl).1 ht
    · obtain ⟨-, -, hl, hr⟩ := hv
      refine ⟨.merge a b, by rw [todoAt_self]; rfl, ?_⟩
      rw [leafData, leafRow_node]
      exact foldData_append hop hl hr
    · omega

theorem values_pair (hop : ∀ a b c, op (op a b) c = op a (op b c)) {m : Merge.Job M} {l r : JobTree B M h}
    (hm : PairJob c m) (hl : Shape h (min c 1) l) (hr : Shape h (c - 1) r) (hv : Values val op (.node m l r))
    (hc : c + js.length ≤ 2) (hjs : js <+: (todoAt h l ++ todoAt h r).map (honest val op)) :
    NodeValues val op (leafData l) (leafData r) (nextJob n m js) := by
  obtain ⟨hvl, hvr, hvm⟩ := hv
  rcases hm with ⟨rfl, rfl⟩ | ⟨rfl, x, rfl⟩ | ⟨rfl, hm⟩
  · obtain ⟨a, ha, hfa⟩ := honest_root hop hl hvl
    obtain ⟨b, hb, hfb⟩ := honest_root hop hr hvr
    rw [ha, hb] at hjs
    rcases js with _ | ⟨a', _ | ⟨b', _ | ⟨e, js⟩⟩⟩
    · trivial
    · simp only [cons_append, nil_append, map_cons, map_nil, cons_prefix_cons] at hjs
      rw [hjs.1]; exact hfa
    · simp only [cons_append, nil_append, map_cons, map_nil, cons_prefix_cons] at hjs
      rw [hjs.1, hjs.2.1]; exact ⟨hfa, hfb⟩
    · simp only [length_cons] at hc; omega
  · obtain ⟨b, hb, hfb⟩ := honest_root hop hr hvr
    rw [hl.allDone.todoAt, hb] at hjs
    rcases js with _ | ⟨b', _ | ⟨e, js⟩⟩
    · exact hvm
    · simp only [nil_append, map_cons, map_nil, cons_prefix_cons] at hjs
      rw [hjs.1]; exact ⟨hvm, hfb⟩
    · simp only [length_cons] at hc; omega
  · obtain ⟨x, y, k, rfl⟩ := hm
    exact hvm

end Values

/-! ## Handing results to a tree -/

/-- What handing `js` to the jobs at height `j` does to a subtree. -/
structure MergeStep (j c n : ℕ) (js : List M) (t t' : ScanTree B M h) : Prop where
  shape : Shape j (c + js.length) (jobs t')
  weighted : Weighted j (c + js.length) t'
  entries : leafEntries (jobs t') = leafEntries (jobs t)
  seq : ∀ P : ℕ → Prop, P n → SeqAll P (jobs t) → SeqAll P (jobs t')
  values : ∀ (val : B → M) (op : M → M → M), (∀ a b c, op (op a b) c = op a (op b c)) →
    Values val op (jobs t) → js <+: (todoAt j (jobs t)).map (honest val op) →
    Values val op (jobs t')

variable {t : ScanTree B M h} {j : ℕ}

theorem MergeStep.data {t' : ScanTree B M h} (hs : MergeStep j c n js t t') :
    leafData (jobs t') = leafData (jobs t) := by
  rw [leafData_eq, leafData_eq, hs.entries]

variable (w : Weight × Weight)

theorem splitJobs_merge (js : List M) : splitJobs .merge w (js.map (Job.merge (B := B))) =
      ((js.take w.1.merge).map .merge, ((js.drop w.1.merge).take w.2.merge).map .merge) := by
  simp [splitJobs, WeightLens.get, map_take, map_drop]

/-- The tree operation of `update`, on perfect trees. -/
abbrev handDown (L n : ℕ) (lens : WeightLens) (d : ℕ) (t : ScanTree B M h)
    (js : List (Job B M)) : Except Panic (ScanTree B M h) :=
  distribute (addMerges L n lens) (addBases n lens) (fun m => m.weight) L (splitJobs lens) d t js

theorem handDown_merge_self (hd : d = L) (ht : Shape h c (jobs t)) (hw : Weighted h c t)
    (hc : c + js.length ≤ 1) :
    ∃ t', handDown L n .merge d t (js.map .merge) = .ok t' ∧ MergeStep h c n js t t' := by
  subst hd
  cases t with
  | leaf b =>
    obtain ⟨w, job⟩ := b
    rcases js with _ | ⟨a, js⟩
    · exact ⟨_, (distribute_leaf le_rfl).2 ⟨_, rfl, rfl⟩, ht, hw, rfl, fun P _ h => h, fun _ _ _ h _ => h⟩
    · simp only [length_cons] at hc
      obtain rfl : js = [] := length_eq_zero_iff.1 (by omega)
      obtain ⟨rfl, x, k, rfl⟩ : c = 0 ∧ job.IsTodo := by
        rcases ht with ht | ⟨rfl, -⟩
        · exact ht
        · omega
      refine ⟨_, (distribute_leaf le_rfl).2 ⟨_, rfl, rfl⟩, Or.inr ⟨rfl, x, k, rfl⟩,
        fun h => by simp at h, ?_, fun P _ hP r hr => ?_, fun _ _ _ _ _ => trivial⟩
      · simp only [leafEntries, jobs_leaf, leafRow_leaf]; rfl
      · cases hr; exact hP ⟨x, k, .todo⟩ rfl
  | @node h m l r =>
    obtain ⟨hl, hr, hm⟩ := (shape_self rfl).1 ht
    obtain ⟨m', hm', hjob, hweight, hrec⟩ := addMerges_self (B := B) hm hc
    refine ⟨.node m' l r, (distribute_node le_rfl).2 ⟨m', _, l, r, hm', distribute_of_lt (by omega) ..,
      distribute_of_lt (by omega) .., rfl⟩, (shape_self rfl).2 ⟨hl, hr, hjob⟩, ?_, ?_, ?_, ?_⟩
    · rw [Weighted, if_pos rfl] at hw ⊢
      intro h0
      rw [hweight h0]; exact hw (by omega)
    · simp [leafEntries, jobs_node, leafRow_node]
    · intro P _ hP
      refine ⟨fun r hr => ?_, hP.2⟩
      obtain ⟨r', hr', hseq, -⟩ := hrec r hr
      rw [hseq]; exact hP.1 r' hr'
    · intro val op hop hv _
      refine ⟨hv.1, hv.2.1, ?_⟩
      have hfull : ∃ x, m'.job = .full x := by
        rcases hjob with ⟨-, a, b, k, he⟩ | ⟨-, a, b, k, he⟩ <;> exact ⟨_, he⟩
      obtain ⟨x, he⟩ := hfull
      obtain ⟨x', hx', -, hleft, hright⟩ := hrec x he
      have hvm := hv.2.2
      rw [hx'] at hvm
      rw [he]
      exact ⟨by rw [hleft]; exact hvm.1, by rw [hright]; exact hvm.2⟩

/-- **Results reach the first jobs to be done**, at any depth of the tree. -/
theorem handDown_merge : ∀ {h d c : ℕ} {t : ScanTree B M h} {js : List M},
    L + j = d + h → j ≤ h → Shape j c (jobs t) → Weighted j c t → c + js.length ≤ 2 ^ (h - j) →
    ∃ t', handDown L n .merge d t (js.map .merge) = .ok t' ∧ MergeStep j c n js t t' := by
  intro h
  induction h with
  | zero =>
    intro d c t js hL hj ht hw hc
    obtain rfl : j = 0 := by omega
    exact handDown_merge_self (by omega) ht hw hc
  | succ h ih =>
    intro d c t js hL hj ht hw hc
    rcases Nat.lt_or_ge h j with hlt | hge
    · obtain rfl : j = h + 1 := by omega
      exact handDown_merge_self (by omega) ht hw (by simpa using hc)
    cases t with
    | node m l r =>
      rw [jobs_node, shape_node hge] at ht
      obtain ⟨hl, hr, hm⟩ := ht
      rw [Weighted, if_neg (by omega)] at hw
      obtain ⟨hw₁, hw₂, hwl, hwr⟩ := hw
      rw [two_pow_sub hge] at hc
      -- the slices fill the left subtree first
      set p := 2 ^ (h - j) with hp
      have hlen₁ : (js.take m.weight.1.merge).length = min js.length (p - min c p) := by
        rw [length_take, hw₁, Nat.min_comm]
      have hlen₂ : ((js.drop m.weight.1.merge).take m.weight.2.merge).length =
          js.length - (p - min c p) := by
        rw [length_take, length_drop, hw₂]; omega
      have hdrop : (js.drop m.weight.1.merge).take m.weight.2.merge = js.drop m.weight.1.merge := by
        refine take_of_length_le ?_
        rw [length_drop, hw₂]; omega
      have hc₁ : min c p + (js.take m.weight.1.merge).length = min (c + js.length) p := by
        rw [hlen₁]; omega
      have hc₂ : c - p + ((js.drop m.weight.1.merge).take m.weight.2.merge).length = c + js.length - p := by
        rw [hlen₂]; omega
      obtain ⟨l', hl', sl⟩ := ih (d := d + 1) (by omega) hge hl hwl (by rw [hc₁]; omega)
      obtain ⟨r', hr', sr⟩ := ih (d := d + 1) (by omega) hge hr hwr (by rw [hc₂]; omega)
      have hsl := sl.shape
      have hsr := sr.shape
      have hWl := sl.weighted
      have hWr := sr.weighted
      rw [hc₁] at hsl hWl
      rw [hc₂] at hsr hWr
      have hnode : ∃ m', addMerges L n .merge (js.map (Job.merge (B := B))) d m = .ok (m', none) ∧
          m'.weight.1.merge = p - min (c + js.length) p ∧
          m'.weight.2.merge = p - (c + js.length - p) ∧
          (if j = h then PairJob (c + js.length) m'.job ∧ m'.job = nextJob n m.job js
            else m'.job = m.job) := by
        rcases Nat.lt_or_ge j h with hlt | hge'
        · refine ⟨_, addMerges_above (by omega) .merge m _, ?_, ?_, ?_⟩
          · simp only [WeightLens.get, WeightLens.set, length_map, hw₁]; omega
          · simp only [WeightLens.get, WeightLens.set, length_map, hw₁, hw₂]; omega
          · rw [if_neg (by omega)]
        · obtain rfl : j = h := by omega
          rw [if_pos rfl] at hm
          rw [Nat.sub_self, pow_zero] at hp
          obtain ⟨m', hm', hjob, h₁, h₂⟩ := addMerges_pair (B := B) (L := L) (d := d)
            (by omega) hm (by rw [hw₁, hp]) (by rw [hw₂, hp]) (show c + js.length ≤ 2 by omega)
          exact ⟨m', hm', by rw [h₁, hp], by rw [h₂, hp], by
            rw [if_pos rfl, hjob]; exact ⟨hm.next (by omega), rfl⟩⟩
      obtain ⟨m', hm', hw₁', hw₂', hjob⟩ := hnode
      refine ⟨.node m' l' r', (distribute_node (by omega)).2 ⟨m', none, l', r', hm', ?_, ?_, rfl⟩,
        ?_, ?_, ?_, ?_, ?_⟩
      · rw [splitJobs_merge]; exact hl'
      · rw [splitJobs_merge]; exact hr'
      · refine (shape_node hge).2 ⟨hsl, hsr, ?_⟩
        split_ifs at hjob hm ⊢
        · exact hjob.1
        · exact hjob.trans hm
      · rw [Weighted, if_neg (by omega)]; exact ⟨hw₁', hw₂', hWl, hWr⟩
      · have hel := sl.entries
        have her := sr.entries
        rw [leafEntries] at hel her
        simp [leafEntries, jobs_node, leafRow_node, hel, her]
      · intro P hn hP
        refine ⟨fun x hx => ?_, sl.seq P hn hP.2.1, sr.seq P hn hP.2.2⟩
        split_ifs at hjob hm with hjh
        · rw [hjob.2] at hx
          rcases hm with ⟨-, he⟩ | ⟨-, a, he⟩ | ⟨-, he⟩
          · rw [he] at hx
            rcases js with _ | ⟨a, _ | ⟨b, _ | ⟨e, js⟩⟩⟩ <;> cases hx
            exact hn
          · rw [he] at hx
            rcases js with _ | ⟨a, _ | ⟨b, js⟩⟩ <;> cases hx
            exact hn
          · obtain ⟨a, b, k, he⟩ := he
            rw [he] at hx; cases hx
            exact hP.1 _ he
        · rw [hjob] at hx; exact hP.1 x hx
      · intro val op hop hv hjs
        rw [jobs_node] at hv hjs
        rw [todoAt_node hge, map_append] at hjs
        obtain ⟨hpl, hpr⟩ := slices_of_isPrefix hjs
        rw [length_map, hl.length_todoAt hge (by omega), ← hw₁] at hpl hpr
        rw [jobs_node, values_node, sl.data, sr.data]
        refine ⟨sl.values val op hop hv.1 hpl, sr.values val op hop hv.2.1 (by rwa [hdrop]), ?_⟩
        split_ifs at hjob hm with hjh
        · subst hjh
          rw [hjob.2]
          rw [hp, Nat.sub_self] at hl hr hc
          exact values_pair hop hm hl hr hv hc (by rwa [map_append])
        · rw [hjob, hm]; trivial

theorem addMerges_result (hd : d < L) {lens : WeightLens} {m' : Merge M} {js : List (Job B M)} {res : Option M}
    (hm : addMerges L n lens js d m = .ok (m', res)) : res = none := by
  unfold addMerges at hm
  dsimp only at hm
  repeat' split at hm
  all_goals
    simp only [bind_eq_ok, Except.ok.injEq, Prod.mk.injEq, reduceCtorEq] at hm <;> grind

/-- **Results handed to a tree** reach the first jobs to be done at height `j`,
    and only the root returns a result. -/
theorem update_merge {k : ℕ} (hk : 0 < k) (hj : j ≤ k) {t : ScanTree B M k} (js : List M)
    (ht : Shape j c (jobs t)) (hw : Weighted j c t) (hc : c + js.length ≤ 2 ^ (k - j)) :
    ∃ t', (flat t).update (js.map .merge) (k - j) n .merge =
        .ok (flat t', if j = k then js.head? else none) ∧ MergeStep j c n js t t' := by
  obtain ⟨t', ht', hs⟩ := handDown_merge (L := k - j) (d := 0) (by omega) hj ht hw hc
  refine ⟨t', ?_, hs⟩
  cases t with
  | leaf b => omega
  | @node h m l r =>
    obtain ⟨m', res, l', r', hm', hl', hr', rfl⟩ := (distribute_node (Nat.zero_le _)).1 ht'
    have hres : res = if j = h + 1 then js.head? else none := by
      split_ifs with hjk
      · subst hjk
        rw [Nat.sub_self] at hm' hc
        obtain ⟨-, -, hjob⟩ := (shape_self rfl).1 ht
        obtain ⟨m'', hm'', -⟩ := addMerges_self (B := B) hjob hc
        rw [hm''] at hm'
        cases hm'; rfl
      · exact addMerges_result (by omega) hm'
    rw [← hres]
    exact updateSplit_flat hm' hl' hr'

/-! ## Handing data to a tree -/

/-- What handing data to a subtree with `f` filled leaves does. -/
structure BaseStep (f n : ℕ) (ds : List B) (t t' : ScanTree B M h) : Prop where
  filling : Filling (f + ds.length) (jobs t')
  space : SpaceWeighted (f + ds.length) t'
  entries : leafEntries (jobs t') = leafEntries (jobs t) ++ ds.map fun d => (d, n)
  seq : ∀ P : ℕ → Prop, P n → SeqAll P (jobs t) → SeqAll P (jobs t')

theorem splitJobs_base (ds : List B) : splitJobs .base w (ds.map (Job.base (M := M))) =
      ((ds.take w.1.base).map .base, ((ds.drop w.1.base).take w.2.base).map .base) := by
  simp [splitJobs, WeightLens.get, map_take, map_drop]

theorem addMerges_space (hd : d < L) (ds : List B) (hm : m.job = .empty)
    (hw : d + 1 = L → m.weight.1.base ≤ 1 ∧ m.weight.2.base ≤ 1 ∧ ds.length ≤ m.weight.1.base + m.weight.2.base) :
    ∃ m', addMerges L n .base (ds.map (Job.base (M := M))) d m = .ok (m', none) ∧
      m'.job = .empty ∧ m'.weight.1.base = m.weight.1.base - min ds.length m.weight.1.base ∧
      m'.weight.2.base = m.weight.2.base -
        min (ds.length - min ds.length m.weight.1.base) m.weight.2.base := by
  rcases Nat.lt_or_ge (d + 1) L with hlt | hge
  · refine ⟨_, addMerges_above hlt .base m _, hm, ?_, ?_⟩ <;>
      simp [WeightLens.get, WeightLens.set]
  · obtain ⟨h₁, h₂, hlen⟩ := hw (by omega)
    obtain ⟨⟨⟨w₁, b₁⟩, w₂, b₂⟩, job⟩ := m
    simp only at hm h₁ h₂ hlen
    subst hm
    rcases ds with _ | ⟨a, ds⟩
    · exact ⟨_, addMerges_nil .., rfl, by simp, by simp⟩
    · have hcond : 0 < L ∧ d = L - 1 := by omega
      unfold addMerges
      rw [if_pos hcond]
      simp only [length_cons] at hlen
      -- the two subtrees below are leaves, so both weights are bits
      rcases ds with _ | ⟨b, _ | ⟨e, ds⟩⟩
      · interval_cases w₁ <;> interval_cases w₂ <;>
          first | exact ⟨_, rfl, rfl, rfl, rfl⟩ | omega
      · simp only [length_cons, length_nil] at hlen
        obtain rfl : w₁ = 1 := by omega
        obtain rfl : w₂ = 1 := by omega
        exact ⟨_, rfl, rfl, rfl, rfl⟩
      · simp only [length_cons] at hlen; omega

theorem Filling.entries_zero : ∀ {h : ℕ} {t : JobTree B M h}, Filling 0 t → leafEntries t = [] := by
  intro h t ht
  have := ht.length_leafData (Nat.zero_le _)
  rw [leafData_eq, length_map] at this
  exact length_eq_zero_iff.1 this

theorem handDown_base : ∀ {h d f : ℕ} {t : ScanTree B M h} {ds : List B},
    L = d + h → Filling f (jobs t) → SpaceWeighted f t → f + ds.length ≤ 2 ^ h →
    ∃ t', handDown L n .base d t (ds.map .base) = .ok t' ∧ BaseStep f n ds t t' := by
  intro h
  induction h with
  | zero =>
    intro d f t ds hL ht hw hf
    cases t with
    | leaf b =>
      obtain ⟨⟨w, b₁⟩, job⟩ := b
      rcases ds with _ | ⟨a, ds⟩
      · exact ⟨_, (distribute_leaf (by omega)).2 ⟨_, rfl, rfl⟩, ht, hw, by simp, fun _ _ h => h⟩
      · simp only [length_cons, pow_zero] at hf
        obtain rfl : ds = [] := length_eq_zero_iff.1 (by omega)
        obtain ⟨rfl, rfl⟩ : f = 0 ∧ job = .empty := by
          rcases ht with ht | ⟨rfl, -⟩
          · exact ht
          · omega
        obtain rfl : w = 1 := hw
        refine ⟨_, (distribute_leaf (by omega)).2 ⟨_, rfl, rfl⟩, Or.inr ⟨rfl, a, n, rfl⟩, rfl, ?_,
          fun P hn _ r hr => ?_⟩
        · simp only [leafEntries, jobs_leaf, leafRow_leaf]; rfl
        · cases hr; exact hn
  | succ h ih =>
    intro d f t ds hL ht hw hf
    cases t with
    | node m l r =>
      rw [jobs_node] at ht
      obtain ⟨hm, hl, hr⟩ := ht
      obtain ⟨hw₁, hw₂, hwl, hwr⟩ := hw
      have hpow : 2 ^ (h + 1) = 2 * 2 ^ h := by rw [pow_succ]; omega
      have hpos := Nat.two_pow_pos h
      rw [hpow] at hf
      set p := 2 ^ h with hp
      have hlen₁ : (ds.take m.weight.1.base).length = min ds.length (p - min f p) := by
        rw [length_take, hw₁, Nat.min_comm]
      have hlen₂ : ((ds.drop m.weight.1.base).take m.weight.2.base).length = ds.length - (p - min f p) := by
        rw [length_take, length_drop, hw₁, hw₂]; omega
      have hdrop : (ds.drop m.weight.1.base).take m.weight.2.base = ds.drop m.weight.1.base := by
        refine take_of_length_le ?_
        rw [length_drop, hw₁, hw₂]; omega
      have hf₁ : min f p + (ds.take m.weight.1.base).length = min (f + ds.length) p := by
        rw [hlen₁]; omega
      have hf₂ : f - p + ((ds.drop m.weight.1.base).take m.weight.2.base).length = f + ds.length - p := by
        rw [hlen₂]; omega
      obtain ⟨l', hl', sl⟩ := ih (d := d + 1) (by omega) hl hwl (by rw [hf₁]; omega)
      obtain ⟨r', hr', sr⟩ := ih (d := d + 1) (by omega) hr hwr (by rw [hf₂]; omega)
      have hsl := sl.filling
      have hsr := sr.filling
      have hWl := sl.space
      have hWr := sr.space
      rw [hf₁] at hsl hWl
      rw [hf₂] at hsr hWr
      obtain ⟨m', hm', hjob, hw₁', hw₂'⟩ := addMerges_space (n := n) (L := L) (d := d) (by omega)
        ds hm (fun hd => by
          obtain rfl : h = 0 := by omega
          rw [hw₁, hw₂, hp]; simp only [pow_zero]; omega)
      refine ⟨.node m' l' r', (distribute_node (by omega)).2 ⟨m', none, l', r', hm', ?_, ?_, rfl⟩,
        ⟨hjob, hsl, hsr⟩, ⟨?_, ?_, hWl, hWr⟩, ?_, fun P hn hP => ⟨?_, sl.seq P hn hP.2.1,
          sr.seq P hn hP.2.2⟩⟩
      · rw [splitJobs_base]; exact hl'
      · rw [splitJobs_base]; exact hr'
      · rw [hw₁', hw₁]; omega
      · rw [hw₂', hw₁, hw₂]; omega
      · have hel := sl.entries
        have her := sr.entries
        rw [hdrop] at her
        rw [leafEntries, leafEntries] at hel her
        simp only [leafEntries, jobs_node, leafRow_node, hel, her]
        -- while the left subtree has room the right one is empty
        rcases Nat.lt_or_ge f p with hlt | hge
        · have hz : leafRow Base.Job.entry (jobs r) = [] := by
            have hr0 : Filling 0 (jobs r) := by rwa [show f - p = 0 by omega] at hr
            exact hr0.entries_zero
          rw [hz, append_nil, nil_append, append_assoc, ← map_append, take_append_drop]
        · rw [show m.weight.1.base = 0 by rw [hw₁]; omega]
          simp
      · intro x hx; rw [hjob] at hx; cases hx

theorem update_base {k f : ℕ} (hk : 0 < k) {t : ScanTree B M k} {ds : List B}
    (ht : Filling f (jobs t)) (hw : SpaceWeighted f t) (hf : f + ds.length ≤ 2 ^ k) :
    ∃ t', (flat t).update (ds.map .base) k n .base = .ok (flat t', none) ∧ BaseStep f n ds t t' := by
  obtain ⟨t', ht', hs⟩ := handDown_base (L := k) (d := 0) (by omega) ht hw hf
  refine ⟨t', ?_, hs⟩
  cases t with
  | leaf b => omega
  | @node h m l r =>
    obtain ⟨m', res, l', r', hm', hl', hr', rfl⟩ := (distribute_node (Nat.zero_le _)).1 ht'
    rw [← addMerges_result hk hm']
    exact updateSplit_flat hm' hl' hr'

/-! ## Resetting the weights -/

variable (resetKind : ResetKind)

def reweigh (t : ScanTree B M h) : ScanTree B M h × (Weight × Weight) :=
  accumulate (resetMerge resetKind) (resetBase resetKind) t

theorem resetWeights_flat (t : ScanTree B M h) :
    (flat t).resetWeights resetKind = .ok (flat (reweigh resetKind t).1) := by
  rw [Tree.resetWeights, updateAccumulate_flat]
  rfl

theorem jobs_reweigh (resetKind : ResetKind) :
    {h : ℕ} → (t : ScanTree B M h) → jobs (reweigh resetKind t).1 = jobs t
  | 0, .leaf b => by rw [jobs_leaf]; rfl
  | h + 1, .node m l r => by
    have hl := jobs_reweigh resetKind l
    have hr := jobs_reweigh resetKind r
    rw [reweigh] at hl hr
    rw [reweigh, accumulate, jobs_node, hl, hr]
    rfl

theorem weighted_reweigh : ∀ {h : ℕ} {t : ScanTree B M h}, j ≤ h →
    Shape j 0 (jobs t) → Weighted j 0 (reweigh .merge t).1 ∧
      (reweigh .merge t).2.1.merge + (reweigh .merge t).2.2.merge = 2 ^ (h - j) := by
  intro h
  induction h with
  | zero =>
    intro t hj ht
    cases t with
    | leaf b =>
      obtain ⟨w, job⟩ := b
      rcases ht with ⟨-, x, n, rfl⟩ | ⟨h, -⟩
      · obtain rfl : j = 0 := by omega
        exact ⟨fun _ => rfl, rfl⟩
      · omega
  | succ h ih =>
    intro t hj ht
    cases t with
    | node m l r =>
      obtain ⟨⟨w₁, w₂⟩, job⟩ := m
      rcases Nat.lt_or_ge h j with hlt | hge
      · obtain rfl : j = h + 1 := by omega
        obtain ⟨-, -, ⟨-, a, b, n, rfl⟩ | ⟨h, -⟩⟩ := (shape_self rfl).1 ht
        · rw [reweigh, accumulate, Weighted, if_pos rfl, Nat.sub_self]
          exact ⟨fun _ => rfl, rfl⟩
        · omega
      · rw [jobs_node, shape_node hge] at ht
        obtain ⟨hl, hr, hm⟩ := ht
        rw [Nat.zero_sub] at hr
        obtain ⟨hwl, hsl⟩ := ih hge hl
        obtain ⟨hwr, hsr⟩ := ih hge hr
        obtain rfl : job = .empty := by
          split_ifs at hm with hjh
          · rcases hm with ⟨-, rfl⟩ | ⟨h, -⟩ | ⟨h, -⟩
            · rfl
            · omega
            · omega
          · exact hm
        rw [reweigh, accumulate, Weighted, if_neg (by omega), two_pow_sub hge]
        simp only [Nat.zero_min, Nat.zero_sub, Nat.sub_zero]
        exact ⟨⟨hsl, hsr, hwl, hwr⟩, (congrArg₂ (· + ·) hsl hsr).trans (two_mul _).symm⟩

theorem spaceWeighted_reweigh : ∀ {h f : ℕ} {t : ScanTree B M h},
    SpaceWeighted f t → SpaceWeighted f (reweigh .merge t).1 := by
  intro h
  induction h with
  | zero =>
    intro f t ht
    cases t with
    | leaf b =>
      obtain ⟨w, job⟩ := b
      have hb : (reweigh .merge (.leaf ⟨w, job⟩ : ScanTree B M 0)).1 =
          .leaf (resetBase .merge ⟨w, job⟩).1 := rfl
      rw [hb]
      unfold resetBase
      split <;> exact ht
  | succ h ih =>
    intro f t ht
    cases t with
    | node m l r =>
      obtain ⟨h₁, h₂, hl, hr⟩ := ht
      refine ⟨?_, ?_, ih hl, ih hr⟩
      · refine Eq.trans ?_ h₁
        dsimp only
        split <;> rfl
      · refine Eq.trans ?_ h₂
        dsimp only
        split <;> rfl

theorem weighted_reweigh_both : ∀ {h : ℕ} {t : ScanTree B M h},
    Filling (2 ^ h) (jobs t) → Weighted 0 0 (reweigh .both t).1 ∧
      (reweigh .both t).2.1.merge + (reweigh .both t).2.2.merge = 2 ^ h := by
  intro h
  induction h with
  | zero =>
    intro t ht
    cases t with
    | leaf b =>
      obtain ⟨w, job⟩ := b
      rcases ht with ⟨h, -⟩ | ⟨-, x, n, rfl⟩
      · simp at h
      · exact ⟨fun _ => rfl, rfl⟩
  | succ h ih =>
    intro t ht
    cases t with
    | node m l r =>
      obtain ⟨-, hl, hr⟩ := ht
      have hpow : 2 ^ (h + 1) = 2 * 2 ^ h := by rw [pow_succ]; omega
      rw [min_eq_right (by omega)] at hl
      rw [hpow, show 2 * 2 ^ h - 2 ^ h = 2 ^ h by omega] at hr
      obtain ⟨hwl, hsl⟩ := ih hl
      obtain ⟨hwr, hsr⟩ := ih hr
      rw [reweigh, accumulate, Weighted, hpow]
      simp only [Nat.zero_min, Nat.zero_sub, Nat.sub_zero]
      exact ⟨⟨hsl, hsr, hwl, hwr⟩, (congrArg₂ (· + ·) hsl hsr).trans (two_mul _).symm⟩

/-! ## The empty tree -/

theorem filling_emptyTree : (h : ℕ) → Filling 0 (jobs (emptyTree h : ScanTree B M h))
  | 0 => Or.inl ⟨rfl, rfl⟩
  | h + 1 => by
    refine ⟨rfl, ?_, ?_⟩
    · rw [Nat.zero_min]; exact filling_emptyTree h
    · rw [Nat.zero_sub]; exact filling_emptyTree h

theorem spaceWeighted_emptyTree : (h : ℕ) → SpaceWeighted 0 (emptyTree h : ScanTree B M h)
  | 0 => rfl
  | h + 1 => by
    refine ⟨?_, ?_, ?_, ?_⟩
    · simp
    · simp
    · rw [Nat.zero_min]; exact spaceWeighted_emptyTree h
    · rw [Nat.zero_sub]; exact spaceWeighted_emptyTree h

end MinaRust.ParallelScan
