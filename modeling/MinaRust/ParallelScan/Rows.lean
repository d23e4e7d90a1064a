/-
  What the visits of a tree collect.

  The jobs of a level are a row of the tree (`todoAt`), the data are those of
  its leaves (`leafData`), and counting jobs is a sum over its nodes.  The
  weights read at the first value of the layout are those of the root, and a
  new tree is `emptyTree`.
-/
import MinaRust.ParallelScan.Layout

namespace MinaRust.ParallelScan

open List Nat PTree Value

variable {α β A B M : Type} {h : ℕ}

/-! ## Visits -/

theorem foldDepth_append {fm : ℕ → List A → β → List A} {fb : List A → α → List A} (gm : ℕ → β → List A)
    (gb : α → List A) (hm : ∀ i acc m, fm i acc m = acc ++ gm i m) (hb : ∀ acc b, fb acc b = acc ++ gb b)
    (t : PTree α β h) : (flat t).foldDepth fm fb [] = (PTree.bfs (fun _ => gb) gm h 0 [t]).flatten := by
  have hfold : ∀ (xs : List (Value α β × ℕ)) (init : List A),
      xs.foldl (fun acc x => x.1.elim (fb acc) (fm (depthAt x.2) acc)) init =
        init ++ (xs.map fun x => x.1.elim gb (gm (depthAt x.2))).flatten := by
    intro xs
    induction xs with
    | nil => intro init; simp
    | cons x xs ih =>
      intro init
      obtain ⟨v, i⟩ := x
      rw [foldl_cons, ih, map_cons, flatten_cons, ← append_assoc]
      cases v
      · simp only [elim, hb]
      · simp only [elim, hm]
  have hmap := mapIdx_bfs_root (fun _ => Value.leaf) (fun _ => Value.node)
    (fun d v => v.elim gb (gm d)) t
  rw [Tree.foldDepth, hfold, nil_append]
  refine congrArg List.flatten (Eq.trans ?_ hmap)
  rw [mapIdx_eq_zipIdx_map]
  rfl

theorem foldDepth_add [AddCommMonoid A] {fm : ℕ → A → β → A} {fb : A → α → A} (gm : β → A)
    (gb : α → A) (hm : ∀ i acc m, fm i acc m = acc + gm m) (hb : ∀ acc b, fb acc b = acc + gb b)
    (init : A) (t : PTree α β h) : (flat t).foldDepth fm fb init = init + t.total gb gm := by
  have hfold : ∀ (xs : List (Value α β)) (i : ℕ) (init : A),
      (xs.zipIdx i).foldl (fun acc x => x.1.elim (fb acc) (fm (depthAt x.2) acc)) init =
        init + (xs.map fun x => x.elim gb gm).sum := by
    intro xs
    induction xs with
    | nil => intro i init; simp
    | cons x xs ih =>
      intro i init
      rw [zipIdx_cons, foldl_cons, ih, map_cons, sum_cons, ← add_assoc]
      cases x
      · simp only [elim, hb]
      · simp only [elim, hm]
  have hmap := bfs_map (fun x : Value α β => x.elim gb gm) (fun _ => Value.leaf)
    (fun _ => Value.node) (d := 0) [t]
  have hsum : (PTree.bfs (fun _ => gb) (fun _ => gm) h 0 [t]).sum = t.total gb gm := by
    simpa using sum_bfs gb gm (d := 0) [t]
  rw [Tree.foldDepth, hfold, ← hsum]
  exact congrArg (fun xs : List A => init + xs.sum) hmap

/-- A tree with jobs and weights. -/
abbrev ScanTree (B M : Type) (h : ℕ) := PTree (Base B) (Merge M) h

/-- A tree of jobs, without weights. -/
abbrev JobTree (B M : Type) (h : ℕ) := PTree (Base.Job B) (Merge.Job M) h

def jobs (t : ScanTree B M h) : JobTree B M h := t.map Base.job Merge.job

@[simp] theorem jobs_leaf (b : Base B) : jobs (.leaf b : ScanTree B M 0) = .leaf b.job := rfl

@[simp] theorem jobs_node (m : Merge M) (l r : ScanTree B M h) :
    jobs (.node m l r) = .node m.job (jobs l) (jobs r) := rfl

def Base.Job.todo : Base.Job B → List (AvailableJob B M)
  | .full ⟨job, _, .todo⟩ => [.base job]
  | _ => []

def Merge.Job.todo : Merge.Job M → List (AvailableJob B M)
  | .full ⟨left, right, _, .todo⟩ => [.merge left right]
  | _ => []

def Base.Job.data : Base.Job B → List B
  | .full r => [r.job]
  | .empty => []

def Base.Job.record : Base.Job B → List (Base.Record B)
  | .full r => [r]
  | .empty => []

/-- The jobs to be done at height `j`, from left to right. -/
def todoAt (j : ℕ) (t : JobTree B M h) : List (AvailableJob B M) :=
  (t.row Base.Job.todo Merge.Job.todo j).flatten

/-- What `f` collects at the leaves, from left to right. -/
def leafRow (f : α → List A) (t : PTree α β h) : List A := (t.row f (fun _ => []) 0).flatten

def leafData (t : JobTree B M h) : List B := leafRow Base.Job.data t

def leafRecords (t : JobTree B M h) : List (Base.Record B) := leafRow Base.Job.record t

@[simp] theorem todoAt_leaf (b : Base.Job B) : todoAt 0 (.leaf b : JobTree B M 0) = b.todo := by
  simp [todoAt, row]

@[simp] theorem todoAt_self (m : Merge.Job M) (l r : JobTree B M h) :
    todoAt (h + 1) (.node m l r) = m.todo := by
  simp [todoAt, row]

theorem todoAt_node {j : ℕ} (hj : j ≤ h) (m : Merge.Job M) (l r : JobTree B M h) :
    todoAt j (.node m l r) = todoAt j l ++ todoAt j r := by
  simp [todoAt, row_node_of_lt _ _ (lt_succ_of_le hj)]

theorem todoAt_of_gt {j : ℕ} (hj : h < j) (t : JobTree B M h) : todoAt j t = [] := by
  rw [todoAt, row_of_gt _ _ t hj]; rfl

@[simp] theorem leafRow_leaf (f : α → List A) (a : α) : leafRow f (.leaf a : PTree α β 0) = f a := by
  simp [leafRow, row]

@[simp] theorem leafRow_node (f : α → List A) (b : β) (l r : PTree α β h) :
    leafRow f (.node b l r) = leafRow f l ++ leafRow f r := by
  simp [leafRow, row_node_of_lt _ _ (succ_pos h)]

theorem jobsOnLevel_flat {level : ℕ} (hl : level ≤ h) (t : ScanTree B M h) :
    (flat t).jobsOnLevel h level = todoAt (h - level) (jobs t) := by
  refine (foldDepth_append (fun i m => if i = level then (m.job.todo : List (AvailableJob B M)) else [])
    (fun b => if level = h then (b.job.todo : List (AvailableJob B M)) else [])
    (fun i acc m => ?_) (fun acc b => ?_) t).trans ?_
  · rcases m with ⟨w, _ | a | ⟨l, r, n, _ | _⟩⟩ <;> simp [Merge.Job.todo]
    split_ifs <;> simp
  · rcases b with ⟨w, _ | ⟨l, n, _ | _⟩⟩ <;> simp [Base.Job.todo]
    split_ifs <;> simp
  rw [flatten_bfs_row level (fun d b hd => if_neg hd) [t] (zero_le _)
    (by omega) (fun hne a => if_neg (by omega)), List.flatMap_singleton, Nat.zero_add, todoAt, jobs,
    row_map]
  simp only [if_true]
  rcases lt_or_ge level h with hlt | hge
  · rw [row_congr_leaf _ (fun b => b.job.todo) _ (by omega)]
  · simp [show level = h by omega]

theorem collect_leaves {fb : List A → Base B → List A} {gb : Base.Job B → List A}
    (hb : ∀ acc b, fb acc b = acc ++ gb b.job) (t : ScanTree B M h) :
    (flat t).foldDepth (fun _ acc _ => acc) fb [] = leafRow gb (jobs t) := by
  rw [foldDepth_append (fun _ _ => []) (fun b => gb b.job) (fun _ _ _ => (append_nil _).symm) hb,
    flatten_bfs_row h (fun _ _ _ => rfl) [t] (zero_le _) (by omega)
      (fun hne => absurd (Nat.zero_add h) hne), List.flatMap_singleton, Nat.zero_add, Nat.sub_self,
    leafRow, jobs, row_map]

theorem baseJobs_flat (t : ScanTree B M h) : (flat t).baseJobs = leafData (jobs t) :=
  collect_leaves (fun acc b => by rcases b with ⟨w, _ | ⟨l, n, s⟩⟩ <;> simp [Base.Job.data]) t

theorem leaves_flat (t : ScanTree B M h) : (flat t).leaves = leafRecords (jobs t) :=
  collect_leaves (fun acc b => by rcases b with ⟨w, _ | ⟨l, n, s⟩⟩ <;> simp [Base.Job.record]) t

/-! ## The weights of the root -/

def mergeWeight : ScanTree B M h → ℕ
  | .leaf b => b.weight.merge
  | .node m _ _ => m.weight.1.merge + m.weight.2.merge

def baseWeight : ScanTree B M h → ℕ
  | .leaf b => b.weight.base
  | .node m _ _ => m.weight.1.base + m.weight.2.base

theorem requiredJobCount_flat (t : ScanTree B M h) : (flat t).requiredJobCount = mergeWeight t := by
  obtain ⟨rest, hv⟩ := flat_values t
  unfold Tree.requiredJobCount
  rw [hv]
  cases t <;> rfl

theorem availableSpace_flat (t : ScanTree B M h) : (flat t).availableSpace = baseWeight t := by
  obtain ⟨rest, hv⟩ := flat_values t
  unfold Tree.availableSpace
  rw [hv]
  cases t <;> rfl

/-! ## New trees -/

def emptyTree : (h : ℕ) → ScanTree B M h
  | 0 => .leaf ⟨⟨1, 0⟩, .empty⟩
  | h + 1 => .node ⟨(⟨2 ^ h, 0⟩, ⟨2 ^ h, 0⟩), .empty⟩ (emptyTree h) (emptyTree h)

def unitTree : (h : ℕ) → PTree Unit Unit h
  | 0 => .leaf ()
  | h + 1 => .node () (unitTree h) (unitTree h)

theorem flatMap_children_replicate {t : PTree α β h} {b : β} (n : ℕ) :
    (List.replicate n (.node b t t : PTree α β (h + 1))).flatMap PTree.children =
      List.replicate (2 * n) t := by
  induction n with
  | zero => rfl
  | succ n ih =>
    rw [replicate_succ, flatMap_cons, ih, show 2 * (n + 1) = 2 * n + 1 + 1 by omega,
      replicate_succ, replicate_succ]
    rfl

theorem bfs_emptyTree (k : ℕ) : ∀ {h d : ℕ} (n : ℕ), d + h = k →
    PTree.bfs (fun _ => Value.leaf) (fun _ => Value.node) h d
        (List.replicate n (emptyTree h : ScanTree B M h)) =
      PTree.bfs (fun _ _ => .leaf ⟨⟨1, 0⟩, .empty⟩)
        (fun d _ => .node ⟨(⟨2 ^ k / 2 ^ (d + 1), 0⟩, ⟨2 ^ k / 2 ^ (d + 1), 0⟩), .empty⟩) h d
        (List.replicate n (unitTree h)) := by
  intro h
  induction h with
  | zero => intro d n _; simp [bfs, emptyTree, unitTree]
  | succ h ih =>
    intro d n hk
    have hpow : 2 ^ k / 2 ^ (d + 1) = 2 ^ h := by
      rw [← hk, show d + (h + 1) = h + (d + 1) by omega, pow_add,
        Nat.mul_div_cancel _ (Nat.two_pow_pos _)]
    rw [bfs, bfs, emptyTree, unitTree, flatMap_children_replicate,
      flatMap_children_replicate, ih (2 * n) (by omega)]
    simp [hpow]

theorem createTree_eq (k : ℕ) : (Tree.createTree k : Tree (Base B) (Merge M)) = flat (emptyTree k) := by
  have hmap := mapIdx_bfs_root (fun _ _ => ()) (fun _ _ => ()) (fun d _ =>
    if d = k then (Value.leaf ⟨⟨1, 0⟩, .empty⟩ : Value (Base B) (Merge M))
    else .node ⟨(⟨2 ^ k / 2 ^ (d + 1), 0⟩, ⟨2 ^ k / 2 ^ (d + 1), 0⟩), .empty⟩) (unitTree k)
  have hlen := length_bfs (fun _ _ => ()) (fun _ _ => ()) k 0 [unitTree k]
  have hrange : ∀ (F : ℕ → Value (Base B) (Merge M)) (us : List Unit),
      us.mapIdx (fun i _ => F i) = (List.range us.length).map F := by
    intro F us
    refine ext_getElem (by simp) fun i _ _ => by simp
  have hbfs := bfs_emptyTree (B := B) (M := M) k (h := k) (d := 0) 1 (Nat.zero_add k)
  rw [hrange, hlen, length_singleton, mul_one] at hmap
  simp only [replicate_one] at hbfs
  -- leaves occur at depth `k` only, inner nodes above it
  have hcongr : ∀ {h d : ℕ} (ts : List (PTree Unit Unit h)), d + h = k →
      PTree.bfs (fun d _ => if d = k then (Value.leaf ⟨⟨1, 0⟩, .empty⟩ : Value (Base B) (Merge M))
          else .node ⟨(⟨2 ^ k / 2 ^ (d + 1), 0⟩, ⟨2 ^ k / 2 ^ (d + 1), 0⟩), .empty⟩)
        (fun d _ => if d = k then (Value.leaf ⟨⟨1, 0⟩, .empty⟩ : Value (Base B) (Merge M))
          else .node ⟨(⟨2 ^ k / 2 ^ (d + 1), 0⟩, ⟨2 ^ k / 2 ^ (d + 1), 0⟩), .empty⟩) h d ts =
      PTree.bfs (fun _ _ => .leaf ⟨⟨1, 0⟩, .empty⟩)
        (fun d _ => .node ⟨(⟨2 ^ k / 2 ^ (d + 1), 0⟩, ⟨2 ^ k / 2 ^ (d + 1), 0⟩), .empty⟩) h d ts := by
    intro h
    induction h with
    | zero =>
      intro d ts hk
      refine map_congr_left fun t _ => ?_
      cases t
      exact if_pos (by omega)
    | succ h ih =>
      intro d ts hk
      rw [bfs, bfs, ih _ (by omega)]
      congr 1
      refine map_congr_left fun t _ => ?_
      cases t
      exact if_neg (by omega)
  exact congrArg Tree.mk (hmap.trans ((hcongr _ (Nat.zero_add k)).trans hbfs.symm))

end MinaRust.ParallelScan
