/-
  The shapes of the trees of a running scan.

  An older tree is worked on at one height `j` (counted from the leaves) at a time:
  everything below is done, everything more than one level above is empty, and `c` of the
  jobs at height `j` are done, from left to right (`Shape j c`).  Each pair of done jobs has
  made a job at height `j + 1`, a single one a half-filled job.
-/
import MinaRust.ParallelScan.Rows

namespace MinaRust.ParallelScan

open List

variable {B M : Type} {h : ℕ}

/-! ## Jobs -/

def Base.Job.IsTodo (b : Base.Job B) : Prop := ∃ job n, b = .full ⟨job, n, .todo⟩

def Base.Job.IsDone (b : Base.Job B) : Prop := ∃ job n, b = .full ⟨job, n, .done⟩

def Merge.Job.IsTodo (m : Merge.Job M) : Prop := ∃ a b n, m = .full ⟨a, b, n, .todo⟩

def Merge.Job.IsDone (m : Merge.Job M) : Prop := ∃ a b n, m = .full ⟨a, b, n, .done⟩

def AllDone (t : JobTree B M h) : Prop := t.All Base.Job.IsDone Merge.Job.IsDone

/-- The job one level above the worked one, when `c` of its two children are
    done. -/
def PairJob (c : ℕ) (m : Merge.Job M) : Prop :=
  c = 0 ∧ m = .empty ∨ c = 1 ∧ (∃ a, m = .part a) ∨ c = 2 ∧ m.IsTodo

/-- A tree worked on at height `j`, with `c` of the jobs there done. -/
def Shape (j : ℕ) : {h : ℕ} → ℕ → JobTree B M h → Prop
  | 0, c, .leaf b => c = 0 ∧ b.IsTodo ∨ c = 1 ∧ b.IsDone
  | h + 1, c, .node m l r =>
    if j = h + 1 then AllDone l ∧ AllDone r ∧ (c = 0 ∧ m.IsTodo ∨ c = 1 ∧ m.IsDone)
    else Shape j (min c (2 ^ (h - j))) l ∧ Shape j (c - 2 ^ (h - j)) r ∧
      if j = h then PairJob c m else m = .empty

/-- A tree whose first `f` leaves are filled, none of them done. -/
def Filling : {h : ℕ} → ℕ → JobTree B M h → Prop
  | 0, f, .leaf b => f = 0 ∧ b = .empty ∨ f = 1 ∧ b.IsTodo
  | h + 1, f, .node m l r => m = .empty ∧ Filling (min f (2 ^ h)) l ∧ Filling (f - 2 ^ h) r

/-! ## Weights -/

/-- Above the height `j` merge weights count the jobs to be done at it. -/
def Weighted (j : ℕ) : {h : ℕ} → ℕ → ScanTree B M h → Prop
  | 0, c, .leaf b => c = 0 → b.weight.merge = 1
  | h + 1, c, .node m l r =>
    if j = h + 1 then c = 0 → m.weight.1.merge + m.weight.2.merge = 1
    else m.weight.1.merge = 2 ^ (h - j) - min c (2 ^ (h - j)) ∧
      m.weight.2.merge = 2 ^ (h - j) - (c - 2 ^ (h - j)) ∧
      Weighted j (min c (2 ^ (h - j))) l ∧ Weighted j (c - 2 ^ (h - j)) r

/-- The base weights of a tree with `f` filled leaves count the empty ones. -/
def SpaceWeighted : {h : ℕ} → ℕ → ScanTree B M h → Prop
  | 0, f, .leaf b => b.weight.base = 1 - f
  | h + 1, f, .node m l r =>
    m.weight.1.base = 2 ^ h - min f (2 ^ h) ∧ m.weight.2.base = 2 ^ h - (f - 2 ^ h) ∧
      SpaceWeighted (min f (2 ^ h)) l ∧ SpaceWeighted (f - 2 ^ h) r

/-! ## Values -/

section Values
variable (val : B → M) (op : M → M → M)

def honest : AvailableJob B M → M
  | .base b => val b
  | .merge left right => op left right

/-- The left-to-right fold of a list of data. -/
def foldData : List B → Option M
  | [] => none
  | b :: bs => some (bs.foldl (fun a x => op a (val x)) (val b))

/-- The results stored in a node are the folds of the data `ls` and `rs` below
    it. -/
def NodeValues (ls rs : List B) : Merge.Job M → Prop
  | .empty => True
  | .part a => foldData val op ls = some a
  | .full x => foldData val op ls = some x.left ∧ foldData val op rs = some x.right

/-- Every result stored in the tree is the fold of the data below it. -/
def Values : {h : ℕ} → JobTree B M h → Prop
  | 0, .leaf _ => True
  | _ + 1, .node m l r => Values l ∧ Values r ∧ NodeValues val op (leafData l) (leafData r) m

variable {val op}

theorem values_node {m : Merge.Job M} {l r : JobTree B M h} : Values val op (.node m l r) ↔
    Values val op l ∧ Values val op r ∧ NodeValues val op (leafData l) (leafData r) m := Iff.rfl

theorem foldl_op (hop : ∀ a b c, op (op a b) c = op a (op b c)) (u : M) :
    ∀ (bs : List B) (v : M), bs.foldl (fun a x => op a (val x)) (op u v) =
      op u (bs.foldl (fun a x => op a (val x)) v)
  | [], _ => rfl
  | b :: bs, v => by rw [foldl_cons, foldl_cons, hop, foldl_op hop u bs]

theorem foldData_append (hop : ∀ a b c, op (op a b) c = op a (op b c)) {xs ys : List B} {x y : M}
    (hx : foldData val op xs = some x) (hy : foldData val op ys = some y) :
    foldData val op (xs ++ ys) = some (op x y) := by
  rcases xs with _ | ⟨a, as⟩
  · cases hx
  · rcases ys with _ | ⟨b, bs⟩
    · cases hy
    · simp only [cons_append, foldData, Option.some.injEq] at hx hy ⊢
      rw [← hx, ← hy, foldl_append, foldl_cons, foldl_op hop]

end Values

/-! ## Facts about the shapes -/

theorem Base.Job.IsTodo.length_todo {b : Base.Job B} (hb : b.IsTodo) :
    (b.todo : List (AvailableJob B M)).length = 1 := by
  obtain ⟨job, n, rfl⟩ := hb; rfl

theorem Base.Job.IsDone.todo {b : Base.Job B} (hb : b.IsDone) : (b.todo : List (AvailableJob B M)) = [] := by
  obtain ⟨job, n, rfl⟩ := hb; rfl

variable {m : Merge.Job M}

theorem Merge.Job.IsTodo.length_todo (hm : m.IsTodo) : (m.todo : List (AvailableJob B M)).length = 1 := by
  obtain ⟨a, b, n, rfl⟩ := hm; rfl

theorem Merge.Job.IsDone.todo (hm : m.IsDone) : (m.todo : List (AvailableJob B M)) = [] := by
  obtain ⟨a, b, n, rfl⟩ := hm; rfl

variable {j : ℕ}

theorem shape_self {c : ℕ} (hj : j = h + 1) {l r : JobTree B M h} : Shape j c (.node m l r) ↔
      AllDone l ∧ AllDone r ∧ (c = 0 ∧ m.IsTodo ∨ c = 1 ∧ m.IsDone) := by
  rw [Shape, if_pos hj]

theorem shape_node {c : ℕ} (hj : j ≤ h) {l r : JobTree B M h} :
    Shape j c (.node m l r) ↔ Shape j (min c (2 ^ (h - j))) l ∧ Shape j (c - 2 ^ (h - j)) r ∧
      if j = h then PairJob c m else m = .empty := by
  rw [Shape, if_neg (by omega)]

theorem two_pow_sub (hj : j ≤ h) : 2 ^ (h + 1 - j) = 2 * 2 ^ (h - j) := by
  rw [show h + 1 - j = h - j + 1 by omega]; omega

theorem Shape.length_todoAt : ∀ {h c : ℕ} {t : JobTree B M h}, j ≤ h → c ≤ 2 ^ (h - j) →
    Shape j c t → (todoAt j t).length = 2 ^ (h - j) - c := by
  intro h
  induction h with
  | zero =>
    intro c t hj hc ht
    obtain rfl : j = 0 := by omega
    cases t with
    | leaf b =>
      rw [todoAt_leaf]
      rcases ht with ⟨rfl, hb⟩ | ⟨rfl, hb⟩
      · exact hb.length_todo
      · rw [hb.todo]; rfl
  | succ h ih =>
    intro c t hj hc ht
    cases t with
    | node m l r =>
      rcases Nat.lt_or_ge h j with hlt | hge
      · obtain rfl : j = h + 1 := by omega
        rw [todoAt_self, Nat.sub_self]
        rcases ((shape_self rfl).1 ht).2.2 with ⟨rfl, hm⟩ | ⟨rfl, hm⟩
        · exact hm.length_todo
        · rw [hm.todo]; rfl
      · obtain ⟨hl, hr, -⟩ := (shape_node hge).1 ht
        rw [two_pow_sub hge] at hc ⊢
        rw [todoAt_node hge, length_append, ih hge (by omega) hl, ih hge (by omega) hr]
        omega

theorem AllDone.todoAt {j : ℕ} : ∀ {h : ℕ} {t : JobTree B M h}, AllDone t → todoAt j t = [] := by
  intro h
  induction h with
  | zero =>
    intro t ht
    cases t with
    | leaf b =>
      rcases Nat.eq_zero_or_pos j with rfl | hj
      · rw [todoAt_leaf]; exact Base.Job.IsDone.todo ht
      · exact todoAt_of_gt hj _
  | succ h ih =>
    intro t ht
    cases t with
    | node m l r =>
      obtain ⟨hm, hl, hr⟩ := ht
      rcases Nat.lt_trichotomy j (h + 1) with hlt | rfl | hgt
      · rw [todoAt_node (by omega), ih hl, ih hr]; rfl
      · rw [todoAt_self]; exact hm.todo
      · exact todoAt_of_gt hgt _

theorem Shape.length_todoAt_succ : ∀ {h c : ℕ} {t : JobTree B M h}, j < h →
    c ≤ 2 ^ (h - j) → Shape j c t → (todoAt (j + 1) t).length = c / 2 := by
  intro h
  induction h with
  | zero => intro c t hj; omega
  | succ h ih =>
    intro c t hj hc ht
    cases t with
    | node m l r =>
      obtain ⟨hl, hr, hm⟩ := (shape_node (by omega)).1 ht
      rw [two_pow_sub (by omega)] at hc
      rcases Nat.lt_or_ge j h with hlt | hge
      · have hpow : 2 ^ (h - j) = 2 * 2 ^ (h - j - 1) := by
          rw [← pow_succ', show h - j - 1 + 1 = h - j by omega]
        rw [todoAt_node (by omega), length_append, ih hlt (by omega) hl, ih hlt (by omega) hr]
        omega
      · obtain rfl : j = h := by omega
        rw [if_pos rfl] at hm
        rw [todoAt_self]
        rcases hm with ⟨rfl, rfl⟩ | ⟨rfl, a, rfl⟩ | ⟨rfl, hm⟩
        · rfl
        · rfl
        · exact hm.length_todo

theorem Shape.todoAt_other {i : ℕ} : ∀ {h c : ℕ} {t : JobTree B M h}, j ≤ h → Shape j c t →
    i ≠ j → i ≠ j + 1 → todoAt i t = [] := by
  intro h
  induction h with
  | zero => intro c t hj _ hi _; exact todoAt_of_gt (by omega) _
  | succ h ih =>
    intro c t hj ht hi hi'
    cases t with
    | node m l r =>
      rcases Nat.lt_or_ge h j with hlt | hge
      · obtain rfl : j = h + 1 := by omega
        obtain ⟨hl, hr, -⟩ := (shape_self rfl).1 ht
        rcases Nat.lt_or_ge h i with hlt' | hge'
        · exact todoAt_of_gt (by omega) _
        · rw [todoAt_node hge', hl.todoAt, hr.todoAt]; rfl
      · obtain ⟨hl, hr, hm⟩ := (shape_node hge).1 ht
        rcases Nat.lt_trichotomy i (h + 1) with hlt | rfl | hgt
        · rw [todoAt_node (by omega), ih hge hl hi hi', ih hge hr hi hi']; rfl
        · rw [if_neg (by omega)] at hm
          rw [todoAt_self, hm]; rfl
        · exact todoAt_of_gt hgt _

theorem Shape.allDone : ∀ {h : ℕ} {t : JobTree B M h}, Shape h 1 t → AllDone t := by
  intro h t ht
  cases t with
  | leaf b =>
    rcases ht with ⟨h, -⟩ | ⟨-, hb⟩
    · omega
    · exact hb
  | node m l r =>
    obtain ⟨hl, hr, ⟨h, -⟩ | ⟨-, hm⟩⟩ := (shape_self rfl).1 ht
    · omega
    · exact ⟨hm, hl, hr⟩

theorem Shape.finish : ∀ {h : ℕ} {t : JobTree B M h}, j < h → Shape j (2 ^ (h - j)) t →
    Shape (j + 1) 0 t := by
  intro h
  induction h with
  | zero => intro t hj; omega
  | succ h ih =>
    intro t hj ht
    cases t with
    | node m l r =>
      obtain ⟨hl, hr, hm⟩ := (shape_node (by omega)).1 ht
      rw [two_pow_sub (by omega)] at hl hr hm
      rw [min_eq_right (by omega)] at hl
      rw [show 2 * 2 ^ (h - j) - 2 ^ (h - j) = 2 ^ (h - j) by omega] at hr
      rcases Nat.lt_or_ge j h with hlt | hge
      · rw [if_neg (by omega)] at hm
        refine (shape_node (by omega)).2 ⟨by simpa using ih hlt hl, by simpa using ih hlt hr, ?_⟩
        split_ifs
        · exact Or.inl ⟨rfl, hm⟩
        · exact hm
      · obtain rfl : j = h := by omega
        rw [if_pos rfl] at hm
        rw [Nat.sub_self] at hl hr hm
        refine (shape_self rfl).2 ⟨hl.allDone, hr.allDone, Or.inl ⟨rfl, ?_⟩⟩
        rcases hm with ⟨h, -⟩ | ⟨h, -⟩ | ⟨-, hm⟩
        · omega
        · omega
        · exact hm

theorem Filling.full : ∀ {h : ℕ} {t : JobTree B M h}, Filling (2 ^ h) t → Shape 0 0 t := by
  intro h
  induction h with
  | zero =>
    intro t ht
    cases t with
    | leaf b =>
      rcases ht with ⟨h, -⟩ | ⟨-, hb⟩
      · simp at h
      · exact Or.inl ⟨rfl, hb⟩
  | succ h ih =>
    intro t ht
    cases t with
    | node m l r =>
      obtain ⟨hm, hl, hr⟩ := ht
      have hpow : 2 ^ (h + 1) = 2 * 2 ^ h := by rw [pow_succ]; omega
      rw [min_eq_right (by omega)] at hl
      rw [hpow, show 2 * 2 ^ h - 2 ^ h = 2 ^ h by omega] at hr
      refine (shape_node (by omega)).2 ⟨by simpa using ih hl, by simpa using ih hr, ?_⟩
      split_ifs
      · exact Or.inl ⟨rfl, hm⟩
      · exact hm

theorem Filling.length_leafData : ∀ {h f : ℕ} {t : JobTree B M h}, Filling f t → f ≤ 2 ^ h →
    (leafData t).length = f := by
  intro h
  induction h with
  | zero =>
    intro f t ht _
    cases t with
    | leaf b =>
      rcases ht with ⟨rfl, rfl⟩ | ⟨rfl, job, n, rfl⟩ <;> rfl
  | succ h ih =>
    intro f t ht hf
    cases t with
    | node m l r =>
      obtain ⟨-, hl, hr⟩ := ht
      have h₁ := ih hl (by omega)
      have h₂ := ih hr (by omega)
      rw [leafData] at h₁ h₂
      rw [leafData, leafRow_node, length_append, h₂]
      omega

theorem Filling.todoAt_zero : ∀ {h f : ℕ} {t : JobTree B M h}, Filling f t →
    todoAt 0 t = (leafData t).map AvailableJob.base := by
  intro h
  induction h with
  | zero =>
    intro f t ht
    cases t with
    | leaf b =>
      rcases ht with ⟨rfl, rfl⟩ | ⟨rfl, job, n, rfl⟩ <;> rfl
  | succ h ih =>
    intro f t ht
    cases t with
    | node m l r =>
      obtain ⟨-, hl, hr⟩ := ht
      rw [todoAt_node (by omega), ih hl, ih hr, ← map_append, leafData, leafData, leafData, leafRow_node]

theorem Filling.todoAt_other {i : ℕ} (hi : i ≠ 0) : ∀ {h f : ℕ} {t : JobTree B M h}, Filling f t →
    todoAt i t = [] := by
  intro h
  induction h with
  | zero => intro f t _; exact todoAt_of_gt (by omega) _
  | succ h ih =>
    intro f t ht
    cases t with
    | node m l r =>
      obtain ⟨rfl, hl, hr⟩ := ht
      rcases Nat.lt_trichotomy i (h + 1) with hlt | rfl | hgt
      · rw [todoAt_node (by omega), ih hl, ih hr]; rfl
      · rw [todoAt_self]; rfl
      · exact todoAt_of_gt hgt _

theorem Weighted.mergeWeight_eq : ∀ {h c : ℕ} {t : ScanTree B M h}, j ≤ h →
    c ≤ 2 ^ (h - j) → (j = h → c = 0) → Weighted j c t → mergeWeight t = 2 ^ (h - j) - c := by
  intro h c t hj hc hc0 ht
  cases t with
  | leaf b =>
    obtain rfl : j = 0 := by omega
    obtain rfl := hc0 rfl
    exact ht rfl
  | @node h m l r =>
    rw [Weighted] at ht
    split_ifs at ht with heq
    · subst heq
      obtain rfl := hc0 rfl
      rw [Nat.sub_self]; exact ht rfl
    · obtain ⟨h₁, h₂, -⟩ := ht
      rw [two_pow_sub (by omega)] at hc ⊢
      rw [mergeWeight, h₂]
      omega

theorem SpaceWeighted.baseWeight_eq : ∀ {h f : ℕ} {t : ScanTree B M h}, f ≤ 2 ^ h →
    SpaceWeighted f t → baseWeight t = 2 ^ h - f := by
  intro h f t hf ht
  cases t with
  | leaf b => exact ht
  | @node h m l r =>
    obtain ⟨h₁, h₂, -⟩ := ht
    rw [baseWeight, h₂]
    omega

end MinaRust.ParallelScan
