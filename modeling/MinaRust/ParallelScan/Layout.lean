/-
  The operations on the layout of a tree are operations on the tree.

  The loops of `parallel_scan.rs` run over the breadth-first layout `flat t` of a perfect
  tree `t`; here each of them is a recursion over the tree.
-/
import MinaRust.ParallelScan.Scan

namespace MinaRust.ParallelScan

open List Nat PTree

variable {α β D W R A : Type} {h : ℕ}

def flat (t : PTree α β h) : Tree α β := ⟨bfs (fun _ => .leaf) (fun _ => .node) h 0 [t]⟩

theorem flat_values (t : PTree α β h) : ∃ rest, (flat t).values = t.root .leaf .node :: rest := by
  cases h with
  | zero | succ h => exact ⟨_, rfl⟩

theorem length_flat (t : PTree α β h) : (flat t).values.length = 2 ^ (h + 1) - 1 := by
  simp [flat, length_bfs]

/-! ## Handing jobs down -/

section Distribute
variable (funMerge : List D → ℕ → β → Except Panic (β × Option R))
  (funBase : List D → α → Except Panic α) (weightMerge : β → W × W) (updateLevel : ℕ)
  (jobsSplit : W × W → List D → List D × List D)

def distribute : {h : ℕ} → (d : ℕ) → PTree α β h → List D → Except Panic (PTree α β h)
  | 0, d, .leaf a, jobs =>
    if updateLevel < d then .ok (.leaf a) else do .ok (.leaf (← funBase jobs a))
  | _ + 1, d, .node m l r, jobs =>
    if updateLevel < d then .ok (.node m l r)
    else do
      let (m', _) ← funMerge jobs d m
      let l' ← distribute (d + 1) l (jobsSplit (weightMerge m) jobs).1
      let r' ← distribute (d + 1) r (jobsSplit (weightMerge m) jobs).2
      .ok (.node m' l' r')

def below : PTree α β (h + 1) × List D → List (PTree α β h × List D)
  | (.node m l r, jobs) =>
    [(l, (jobsSplit (weightMerge m) jobs).1), (r, (jobsSplit (weightMerge m) jobs).2)]

/-- A forest with jobs, and the forest after the jobs were handed down. -/
def Distributes (d : ℕ) (ps : List (PTree α β h × List D)) (ts : List (PTree α β h)) : Prop :=
  List.Forall₂ (fun p t => distribute funMerge funBase weightMerge updateLevel jobsSplit d p.1 p.2 =
    .ok t) ps ts

variable {funMerge funBase weightMerge updateLevel jobsSplit}

variable {d : ℕ}

theorem distribute_of_lt (hd : updateLevel < d) (t : PTree α β h) (jobs : List D) :
    distribute funMerge funBase weightMerge updateLevel jobsSplit d t jobs = .ok t := by
  cases t <;> simp [distribute, hd]

variable {jobs : List D}

theorem distribute_node (hd : d ≤ updateLevel) {m : β} {l r : PTree α β h} {t : PTree α β (h + 1)} :
    distribute funMerge funBase weightMerge updateLevel jobsSplit d (.node m l r) jobs = .ok t ↔
      ∃ m' res l' r', funMerge jobs d m = .ok (m', res) ∧
        distribute funMerge funBase weightMerge updateLevel jobsSplit (d + 1) l
          (jobsSplit (weightMerge m) jobs).1 = .ok l' ∧
        distribute funMerge funBase weightMerge updateLevel jobsSplit (d + 1) r
          (jobsSplit (weightMerge m) jobs).2 = .ok r' ∧ t = .node m' l' r' := by
  rw [distribute, if_neg (by omega)]
  simp only [bind_eq_ok, Prod.exists, Except.ok.injEq]
  constructor
  · rintro ⟨m', res, hm, l', hl, r', hr, rfl⟩; exact ⟨m', res, l', r', hm, hl, hr, rfl⟩
  · rintro ⟨m', res, l', r', hm, hl, hr, rfl⟩; exact ⟨m', res, hm, l', hl, r', hr, rfl⟩

theorem distribute_leaf (hd : d ≤ updateLevel) {a : α} {t : PTree α β 0} :
    distribute funMerge funBase weightMerge updateLevel jobsSplit d (.leaf a) jobs = .ok t ↔
      ∃ a', funBase jobs a = .ok a' ∧ t = .leaf a' := by
  rw [distribute, if_neg (by omega)]
  simp only [bind_eq_ok, Except.ok.injEq]
  exact exists_congr fun a' => and_congr_right fun _ => eq_comm

theorem Distributes.below {d : ℕ} (hd : d ≤ updateLevel) {ps : List (PTree α β (h + 1) × List D)}
    {ts : List (PTree α β (h + 1))}
    (hp : Distributes funMerge funBase weightMerge updateLevel jobsSplit d ps ts) :
    Distributes funMerge funBase weightMerge updateLevel jobsSplit (d + 1)
      (ps.flatMap (below weightMerge jobsSplit)) (ts.flatMap children) := by
  unfold Distributes at hp ⊢
  induction hp with
  | nil => exact .nil
  | @cons p t ps ts hpt _ ih =>
    obtain ⟨_ | ⟨m, l, r⟩, jobs⟩ := p
    obtain ⟨m', res, l', r', -, hl, hr, rfl⟩ := (distribute_node hd).1 hpt
    exact .cons hl (.cons hr ih)

variable (weightMerge jobsSplit) in
theorem map_fst_below (ps : List (PTree α β (h + 1) × List D)) :
    (ps.flatMap (below weightMerge jobsSplit)).map Prod.fst = (ps.map Prod.fst).flatMap children := by
  induction ps with
  | nil => rfl
  | cons p ps ih =>
    obtain ⟨_ | ⟨m, l, r⟩, jobs⟩ := p
    simp [below, ih]

theorem length_below (ps : List (PTree α β (h + 1) × List D)) :
    (ps.flatMap (below weightMerge jobsSplit)).length = 2 * ps.length := by
  have := congrArg List.length (map_fst_below weightMerge jobsSplit ps)
  rwa [length_map, length_flatMap_children, length_map] at this

/-! ### The loop, level by level -/

theorem popFront_cons (a : List D) (q : List (List D)) (cap : ℕ) :
    VecDeque.popFront ⟨a :: q, cap⟩ = some (a, ⟨q, cap⟩) := rfl

theorem pushBack_of_lt {q : List (List D)} {cap : ℕ} (hq : q.length < cap) (a : List D) :
    VecDeque.pushBack ⟨q, cap⟩ a = ⟨q ++ [a], cap⟩ := by
  simp [VecDeque.pushBack, if_neg (show ¬ q.length = cap by omega)]

theorem pushBack_pushBack {q : List (List D)} {cap : ℕ} (hq : q.length + 2 ≤ cap) (a b : List D) :
    (VecDeque.pushBack ⟨q, cap⟩ a).pushBack b = ⟨q ++ [a, b], cap⟩ := by
  rw [pushBack_of_lt (show q.length < cap by omega) a,
    pushBack_of_lt (show (q ++ [a]).length < cap by rw [length_append]; exact hq) b,
    append_assoc]
  rfl

theorem loop_copy (fifo : VecDeque (List D)) (sr : Option (Option R)) :
    ∀ (values : List (Value α β)) (idx : ℕ), 2 ^ (updateLevel + 1) - 1 ≤ idx →
      Tree.updateSplitLoop funMerge funBase weightMerge updateLevel jobsSplit idx values fifo sr =
        .ok (values, fifo, sr)
  | [], _, _ => rfl
  | v :: values, idx, hi => by
    have hd : updateLevel < depthAt idx := by
      rw [depthAt, lt_iff_add_one_le, le_log_iff_pow_le (by decide) (by omega)]
      omega
    rw [Tree.updateSplitLoop, if_pos hd, loop_copy fifo sr values (idx + 1) (by omega)]
    rfl

theorem loop_nodes (hd : d ≤ updateLevel) (rest : List (Value α β)) (res : Option R) (cap : ℕ)
    {ps : List (PTree α β (h + 1) × List D)} {ts : List (PTree α β (h + 1))}
    (hp : Distributes funMerge funBase weightMerge updateLevel jobsSplit d ps ts) :
    ∀ (idx : ℕ) (q : List (List D)), 2 ^ d - 1 ≤ idx → idx + ps.length ≤ 2 ^ (d + 1) - 1 →
      2 * ps.length + q.length ≤ cap →
      Tree.updateSplitLoop funMerge funBase weightMerge updateLevel jobsSplit idx
          (ps.map (fun p => p.1.root .leaf .node) ++ rest) ⟨ps.map Prod.snd ++ q, cap⟩ (some res) =
        Tree.updateSplitLoop funMerge funBase weightMerge updateLevel jobsSplit (idx + ps.length)
          rest ⟨q ++ (ps.flatMap (below weightMerge jobsSplit)).map Prod.snd, cap⟩ (some res) >>=
            fun x => .ok (ts.map (root .leaf .node) ++ x.1, x.2) := by
  induction hp with
  | nil =>
    intro idx q _ _ _
    simp only [map_nil, nil_append, length_nil, add_zero, flatMap_nil, append_nil]
    cases Tree.updateSplitLoop funMerge funBase weightMerge updateLevel jobsSplit idx rest
      ⟨q, cap⟩ (some res) <;> rfl
  | @cons p t ps ts hpt _ ih =>
    intro idx q h₁ h₂ hcap
    simp only [length_cons] at h₂ hcap
    obtain ⟨_ | ⟨m, l, r⟩, jobs⟩ := p
    obtain ⟨m', res', l', r', hm, hl, hr, rfl⟩ := (distribute_node hd).1 hpt
    have hdep : depthAt idx = d := depthAt_eq h₁ (by omega)
    simp only [map_cons, cons_append, root_node]
    rw [Tree.updateSplitLoop]
    simp only [hdep, if_neg (show ¬ updateLevel < d by omega), popFront_cons, hm, ok_bind,
      Option.isNone_some, Bool.false_eq_true, if_false]
    have hq : ∀ a b : List D, 2 * ps.length + (q ++ [a, b]).length ≤ cap := by
      intro a b; simp only [length_append, length_cons, length_nil]; omega
    rw [pushBack_pushBack (by rw [length_append, length_map]; omega), append_assoc,
      ih (idx + 1) _ (by omega) (by omega) (hq _ _)]
    have hbelow : ((((.node m l r : PTree α β (h + 1)), jobs) :: ps).flatMap
        (below weightMerge jobsSplit)).map Prod.snd = [(jobsSplit (weightMerge m) jobs).1,
          (jobsSplit (weightMerge m) jobs).2] ++ (ps.flatMap (below weightMerge jobsSplit)).map Prod.snd :=
      rfl
    rw [hbelow, ← append_assoc, show idx + 1 + ps.length = idx + (ps.length + 1) by omega]
    cases Tree.updateSplitLoop funMerge funBase weightMerge updateLevel jobsSplit
      (idx + (ps.length + 1)) rest ⟨_, cap⟩ (some res) <;> rfl

theorem loop_leaves (hd : d ≤ updateLevel) (sr : Option (Option R)) (cap : ℕ) {ps : List (PTree α β 0 × List D)}
    {ts : List (PTree α β 0)} (hp : Distributes funMerge funBase weightMerge updateLevel jobsSplit d ps ts) :
    ∀ idx : ℕ, 2 ^ d - 1 ≤ idx → idx + ps.length ≤ 2 ^ (d + 1) - 1 →
      Tree.updateSplitLoop funMerge funBase weightMerge updateLevel jobsSplit idx
          (ps.map fun p => p.1.root .leaf .node) ⟨ps.map Prod.snd, cap⟩ sr =
        .ok (ts.map (root .leaf .node), ⟨[], cap⟩, sr) := by
  induction hp with
  | nil => intro idx _ _; rfl
  | @cons p t ps ts hpt _ ih =>
    intro idx h₁ h₂
    simp only [length_cons] at h₂
    obtain ⟨⟨a⟩, jobs⟩ := p
    obtain ⟨a', ha, rfl⟩ := (distribute_leaf hd).1 hpt
    have hdep : depthAt idx = d := depthAt_eq h₁ (by omega)
    simp only [map_cons, root_leaf]
    rw [Tree.updateSplitLoop]
    simp only [hdep, if_neg (show ¬ updateLevel < d by omega), popFront_cons, ha, ok_bind]
    rw [ih (idx + 1) (by omega) (by omega)]
    rfl

theorem loop_forest (res : Option R) (cap : ℕ) :
    ∀ {h d : ℕ} {ps : List (PTree α β h × List D)} {ts : List (PTree α β h)}, d ≤ updateLevel →
      Distributes funMerge funBase weightMerge updateLevel jobsSplit d ps ts → ps.length = 2 ^ d →
      2 ^ (d + h) ≤ cap → ∃ fifo : List (List D),
      Tree.updateSplitLoop funMerge funBase weightMerge updateLevel jobsSplit (2 ^ d - 1)
          (bfs (fun _ => .leaf) (fun _ => .node) h d (ps.map Prod.fst))
          ⟨ps.map Prod.snd, cap⟩ (some res) =
        .ok (bfs (fun _ => .leaf) (fun _ => .node) h d ts, ⟨fifo, cap⟩, some res) := by
  intro h
  induction h with
  | zero =>
    intro d ps ts hd hp hl _
    refine ⟨[], ?_⟩
    have := loop_leaves hd (some res) cap hp (2 ^ d - 1) le_rfl (by rw [hl]; omega)
    simpa [bfs, map_map, Function.comp_def] using this
  | succ h ih =>
    intro d ps ts hd hp hl hcap
    have hle : 2 * 2 ^ d ≤ 2 ^ (d + (h + 1)) := by
      rw [← pow_succ']; exact Nat.pow_le_pow_right (by decide) (by omega)
    have hroots := loop_nodes hd (bfs (fun _ => .leaf) (fun _ => .node) h (d + 1)
      ((ps.map Prod.fst).flatMap children)) res cap hp (2 ^ d - 1) [] le_rfl
      (by rw [hl]; omega) (by simp only [length_nil]; omega)
    simp only [append_nil, nil_append, hl,
      show 2 ^ d - 1 + 2 ^ d = 2 ^ (d + 1) - 1 by rw [pow_succ]; omega] at hroots
    simp only [bfs, map_map]
    rw [show (root (.leaf : α → Value α β) .node ∘ Prod.fst : PTree α β (h + 1) × List D → _)
      = fun p => p.1.root .leaf .node from rfl, hroots]
    rcases lt_or_ge updateLevel (d + 1) with hlt | hge
    · have hsame : ts.flatMap children = (ps.map Prod.fst).flatMap children := by
        have hb := hp.below hd
        rw [← map_fst_below weightMerge jobsSplit]
        revert hb
        generalize ps.flatMap (below weightMerge jobsSplit) = qs
        generalize ts.flatMap children = us
        intro hb
        induction hb with
        | nil => rfl
        | cons hqu _ ih =>
          rw [distribute_of_lt hlt] at hqu
          cases hqu
          rw [map_cons, ih]
      refine ⟨(ps.flatMap (below weightMerge jobsSplit)).map Prod.snd, ?_⟩
      rw [loop_copy _ _ _ _ (Nat.sub_le_sub_right (Nat.pow_le_pow_right (by decide) (by omega)) 1), hsame]
      rfl
    · obtain ⟨fifo, hrest⟩ := ih hge (hp.below hd) (by rw [length_below, hl]; omega)
        (by rwa [show d + 1 + h = d + (h + 1) by omega])
      refine ⟨fifo, ?_⟩
      rw [map_fst_below] at hrest
      rw [hrest]
      rfl

/-- **The queue distributes the jobs down the tree**, and the result is the one
    of the root. -/
theorem updateSplit_flat {m m' : β} {l r l' r' : PTree α β h} {res : Option R}
    (hm : funMerge jobs 0 m = .ok (m', res))
    (hl : distribute funMerge funBase weightMerge updateLevel jobsSplit 1 l (jobsSplit (weightMerge m) jobs).1 = .ok l')
    (hr : distribute funMerge funBase weightMerge updateLevel jobsSplit 1 r (jobsSplit (weightMerge m) jobs).2 = .ok r') :
    (flat (.node m l r)).updateSplit funMerge funBase weightMerge updateLevel jobsSplit jobs =
      .ok (flat (.node m' l' r'), res) := by
  have hlen : 2 ^ (h + 1) ≤ (flat (.node m l r)).values.length := by
    rw [length_flat]; have := Nat.two_pow_pos (h + 1); omega
  have h2 : 2 ≤ 2 ^ (h + 1) := by rw [pow_succ]; have := Nat.two_pow_pos h; omega
  have hdep : depthAt 0 = 0 := by decide
  set cap := (flat (.node m l r)).values.length with hcap
  have hbfs : (flat (.node m l r)).values = .node m ::
      bfs (fun _ => .leaf) (fun _ => .node) h 1 [l, r] := rfl
  have hloop : ∃ fifo : List (List D), Tree.updateSplitLoop funMerge funBase weightMerge updateLevel
      jobsSplit 1 (bfs (fun _ => .leaf) (fun _ => .node) h 1 [l, r])
      ⟨[(jobsSplit (weightMerge m) jobs).1, (jobsSplit (weightMerge m) jobs).2], cap⟩ (some res) =
        .ok (bfs (fun _ => .leaf) (fun _ => .node) h 1 [l', r'], ⟨fifo, cap⟩, some res) := by
    rcases lt_or_ge updateLevel 1 with hlt | hge
    · rw [distribute_of_lt hlt] at hl hr
      cases hl; cases hr
      refine ⟨_, loop_copy _ _ _ _ ?_⟩
      obtain rfl : updateLevel = 0 := by omega
      decide
    · exact loop_forest res cap hge (.cons (a := (l, _)) hl (.cons (a := (r, _)) hr .nil)) rfl
        (by rwa [add_comm])
  obtain ⟨fifo, hloop⟩ := hloop
  unfold Tree.updateSplit
  have hpush : (VecDeque.withCapacity cap).pushBack jobs = ⟨[jobs], cap⟩ :=
    pushBack_of_lt (by rw [length_nil]; omega) jobs
  rw [← hcap, hpush, hbfs]
  simp only [Tree.updateSplitLoop, hdep, Nat.not_lt_zero, if_false, popFront_cons, hm, ok_bind,
    Option.isNone_none, if_true]
  rw [pushBack_pushBack (by simp only [length_nil]; omega), nil_append, hloop]
  simp only [ok_bind, ensure_of]
  rfl

end Distribute

/-! ## Computing upwards -/

section Accumulate
variable (funMerge : D × D → β → β × D) (funBase : α → α × D)

def accumulate : {h : ℕ} → PTree α β h → PTree α β h × D
  | 0, .leaf a => (.leaf (funBase a).1, (funBase a).2)
  | _ + 1, .node m l r =>
    let (m', data) := funMerge ((accumulate l).2, (accumulate r).2) m
    (.node m' (accumulate l).1 (accumulate r).1, data)

variable {funMerge funBase}

theorem childsOf_eq {datas : List (Option D)} {idx : ℕ} {x y : D}
    (hx : datas[2 * idx + 1]? = some (some x)) (hy : datas[2 * idx + 2]? = some (some y)) :
    Tree.childsOf datas idx = some ((x, y), (datas.set (2 * idx + 1) none).set (2 * idx + 2) none) := by
  have hy' : (datas.set (2 * idx + 1) none)[2 * idx + 2]? = some (some y) := by
    rw [getElem?_set_ne (by omega), hy]
  simp [Tree.childsOf, hx, hy']

/-- One level of inner nodes; `datas` keeps its entries outside the level and the children of
    the level. -/
theorem accLoop_nodes {lower lower' : List (Value α β)} {datas₀ datas : List (Option D)} :
    ∀ (ts : List (PTree α β (h + 1))) (idx : ℕ), ts.length ≤ idx + 1 →
      Tree.updateAccumulateLoop funMerge funBase (idx + ts.length) lower datas₀ =
        .ok (lower', datas) → idx + ts.length ≤ datas.length →
      (∀ i (hi : i < (ts.flatMap children).length), datas[2 * idx + 1 + i]? =
        some (some (accumulate funMerge funBase (ts.flatMap children)[i]).2)) →
      ∃ datas', Tree.updateAccumulateLoop funMerge funBase idx
          (ts.map (root .leaf .node) ++ lower) datas₀ =
            .ok (ts.map (fun t => (accumulate funMerge funBase t).1.root .leaf .node) ++ lower',
              datas') ∧ datas'.length = datas.length ∧
        (∀ i (hi : i < ts.length), datas'[idx + i]? = some (some (accumulate funMerge funBase ts[i]).2)) ∧
        ∀ c, c < idx ∨ idx + ts.length ≤ c ∧ c < 2 * idx + 1 → datas'[c]? = datas[c]? := by
  intro ts
  induction ts with
  | nil =>
    intro idx _ hlow _ _
    exact ⟨datas, by simpa using hlow, rfl, by simp, fun _ _ => rfl⟩
  | cons t ts ih =>
    intro idx hlen hlow hdl hdata
    simp only [length_cons] at hlen hlow hdl
    cases t with
    | node m l r =>
      obtain ⟨datas₁, hloop, hl₁, hset, hframe⟩ := ih (idx + 1) (by omega)
        (by rwa [show idx + 1 + ts.length = idx + (ts.length + 1) by omega]) (by omega)
        (fun i hi => by
          have := hdata (i + 2) (by simpa using hi)
          rw [show 2 * (idx + 1) + 1 + i = 2 * idx + 1 + (i + 2) by omega, this]
          simp)
      have hx : datas₁[2 * idx + 1]? = some (some (accumulate funMerge funBase l).2) := by
        rw [hframe _ (Or.inr ⟨by omega, by omega⟩)]; exact hdata 0 (by simp)
      have hy : datas₁[2 * idx + 2]? = some (some (accumulate funMerge funBase r).2) := by
        rw [hframe _ (Or.inr ⟨by omega, by omega⟩)]; exact hdata 1 (by simp)
      refine ⟨((datas₁.set (2 * idx + 1) none).set (2 * idx + 2) none).set idx
        (some (accumulate funMerge funBase (.node m l r)).2), ?_, by simp [hl₁], ?_, ?_⟩
      · simp only [map_cons, cons_append, root_node]
        rw [Tree.updateAccumulateLoop, hloop]
        simp only [ok_bind, childsOf_eq hx hy]
        rfl
      · intro i hi
        rcases i with _ | i
        · rw [show idx + 0 = idx from rfl, getElem?_set_self (by simp only [length_set]; omega)]
          rfl
        · rw [getElem?_set_ne (by omega)]
          simp only [length_cons] at hi
          rw [getElem?_set_ne (by omega), getElem?_set_ne (by omega),
            show idx + (i + 1) = idx + 1 + i by omega, hset i (by omega)]
          rfl
      · intro c hc
        simp only [length_cons] at hc
        rw [getElem?_set_ne (by omega), getElem?_set_ne (by omega), getElem?_set_ne (by omega)]
        exact hframe c (by omega)

variable (funMerge funBase) in
theorem accLoop_leaves : ∀ (ts : List (PTree α β 0)) (idx : ℕ) (datas : List (Option D)),
      idx + ts.length ≤ datas.length → ∃ datas',
      Tree.updateAccumulateLoop funMerge funBase idx (ts.map (root .leaf .node)) datas =
          .ok (ts.map (fun t => (accumulate funMerge funBase t).1.root .leaf .node), datas') ∧
        datas'.length = datas.length ∧
        ∀ i (hi : i < ts.length), datas'[idx + i]? = some (some (accumulate funMerge funBase ts[i]).2)
  | [], idx, datas, _ => ⟨datas, rfl, rfl, by simp⟩
  | .leaf a :: ts, idx, datas, hlen => by
    simp only [length_cons] at hlen
    obtain ⟨datas₁, hloop, hl₁, hset⟩ := accLoop_leaves ts (idx + 1) datas (by omega)
    refine ⟨datas₁.set idx (some (funBase a).2), ?_, by simp [hl₁], ?_⟩
    · simp only [map_cons, root_leaf]
      rw [Tree.updateAccumulateLoop, hloop]
      rfl
    · intro i hi
      rcases i with _ | i
      · rw [show idx + 0 = idx from rfl, getElem?_set_self (by omega)]; rfl
      · simp only [length_cons] at hi
        rw [getElem?_set_ne (by omega), show idx + (i + 1) = idx + 1 + i by omega,
          hset i (by omega)]
        rfl

theorem flatMap_children_map (ts : List (PTree α β (h + 1))) :
    (ts.map fun t => (accumulate funMerge funBase t).1).flatMap children =
      (ts.flatMap children).map fun t => (accumulate funMerge funBase t).1 := by
  induction ts with
  | nil => rfl
  | cons t ts ih =>
    cases t with
    | node m l r => rw [map_cons, flatMap_cons, ih]; rfl

variable (funMerge funBase) in
theorem accLoop_forest : ∀ {h d : ℕ} (ts : List (PTree α β h)) (datas : List (Option D)),
    ts.length = 2 ^ d → 2 ^ (d + h + 1) - 1 ≤ datas.length → ∃ datas',
      Tree.updateAccumulateLoop funMerge funBase (2 ^ d - 1)
          (bfs (fun _ => .leaf) (fun _ => .node) h d ts) datas =
        .ok (bfs (fun _ => .leaf) (fun _ => .node) h d
          (ts.map fun t => (accumulate funMerge funBase t).1), datas') ∧
        datas'.length = datas.length ∧ ∀ i (hi : i < ts.length),
          datas'[2 ^ d - 1 + i]? = some (some (accumulate funMerge funBase ts[i]).2) := by
  intro h
  induction h with
  | zero =>
    intro d ts datas hts hlen
    have := accLoop_leaves funMerge funBase ts (2 ^ d - 1) datas
      (by rw [hts]; rw [pow_succ] at hlen; omega)
    simpa [bfs, map_map, Function.comp_def] using this
  | succ h ih =>
    intro d ts datas hts hlen
    have hd1 : 2 ^ (d + 1) = 2 * 2 ^ d := by rw [pow_succ]; omega
    have hc : (ts.flatMap children).length = 2 ^ (d + 1) := by
      rw [length_flatMap_children, hts, hd1]
    obtain ⟨datas₁, hloop, hl₁, hset⟩ := ih (ts.flatMap children) datas hc
      (by rwa [show d + 1 + h + 1 = d + (h + 1) + 1 by omega])
    have hle : 2 ^ (d + 1) ≤ 2 ^ (d + (h + 1) + 1) := Nat.pow_le_pow_right (by decide) (by omega)
    obtain ⟨datas', hloop', hl', hset', -⟩ := accLoop_nodes ts (2 ^ d - 1) (by omega)
      (by rwa [show 2 ^ d - 1 + ts.length = 2 ^ (d + 1) - 1 by omega]) (by omega)
      (fun i hi => by
        rw [show 2 * (2 ^ d - 1) + 1 + i = 2 ^ (d + 1) - 1 + i by omega]; exact hset i hi)
    refine ⟨datas', ?_, hl'.trans hl₁, hset'⟩
    simp only [bfs]
    rw [hloop', flatMap_children_map, map_map]
    rfl

theorem updateAccumulate_flat (t : PTree α β h) : (flat t).updateAccumulate funMerge funBase =
      .ok (flat (accumulate funMerge funBase t).1, (accumulate funMerge funBase t).2) := by
  obtain ⟨datas, hloop, -, hset⟩ := accLoop_forest funMerge funBase [t] (List.replicate (flat t).values.length none) rfl
    (by rw [length_replicate, length_flat, zero_add])
  have h0 : datas[0]? = some (some (accumulate funMerge funBase t).2) := hset 0 (by simp)
  unfold Tree.updateAccumulate
  have hloop' : Tree.updateAccumulateLoop funMerge funBase 0 (flat t).values
      (List.replicate (flat t).values.length none) =
        .ok ((flat (accumulate funMerge funBase t).1).values, datas) := hloop
  rw [hloop']
  simp only [ok_bind, h0]
  rfl

end Accumulate

end MinaRust.ParallelScan
