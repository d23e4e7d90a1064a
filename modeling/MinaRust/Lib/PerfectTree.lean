/-
  Perfect binary trees and their breadth-first layout.

  A tree of height `h` has `2 ^ h` leaves, all at depth `h`.  The layout lists the nodes
  depth by depth; the value at index `i` has depth `depthAt i`, and its children stand at
  `2 * i + 1` and `2 * i + 2`.
-/
import Mathlib.Data.Nat.Log
import Mathlib.Tactic

namespace MinaRust

open List

universe u v w

def depthAt (index : ℕ) : ℕ := Nat.log 2 (index + 1)

theorem depthAt_eq {d i : ℕ} (h₁ : 2 ^ d - 1 ≤ i) (h₂ : i < 2 ^ (d + 1) - 1) : depthAt i = d := by
  have hp : 0 < 2 ^ d := by positivity
  exact (Nat.log_eq_iff (Or.inr ⟨by decide, by omega⟩)).2 ⟨by omega, by omega⟩

/-- Perfect binary trees of height `h`, with `α` at the leaves and `β` inside. -/
inductive PTree (α : Type u) (β : Type v) : ℕ → Type (max u v) where
  | leaf (a : α) : PTree α β 0
  | node {h : ℕ} (b : β) (l r : PTree α β h) : PTree α β (h + 1)

namespace PTree
variable {α : Type u} {β : Type v} {γ : Type w} {h : ℕ}

variable (f : α → γ) (g : β → γ)

def root : PTree α β h → γ
  | leaf a => f a
  | node b _ _ => g b

@[simp] theorem root_leaf (a : α) : (leaf a : PTree α β 0).root f g = f a :=
  rfl

@[simp] theorem root_node (b : β) (l r : PTree α β h) : (node b l r).root f g = g b := rfl

def children : PTree α β (h + 1) → List (PTree α β h)
  | node _ l r => [l, r]

@[simp] theorem children_node (b : β) (l r : PTree α β h) : (node b l r).children = [l, r] := rfl

theorem length_flatMap_children (ts : List (PTree α β (h + 1))) :
    (ts.flatMap children).length = 2 * ts.length := by
  induction ts with
  | nil => rfl
  | cons t ts ih => cases t; simp [ih]; omega

/-- The breadth-first layout of a forest whose roots have depth `d`. -/
def bfs (f : ℕ → α → γ) (g : ℕ → β → γ) : (h d : ℕ) → List (PTree α β h) → List γ
  | 0, d, ts => ts.map (root (f d) (g d))
  | h + 1, d, ts => ts.map (root (f d) (g d)) ++ bfs f g h (d + 1) (ts.flatMap children)

def row (f : α → γ) (g : β → γ) (j : ℕ) : {h : ℕ} → PTree α β h → List γ
  | 0, leaf a => if j = 0 then [f a] else []
  | h + 1, node b l r => if j = h + 1 then [g b] else row f g j l ++ row f g j r

theorem row_root : {h : ℕ} → (t : PTree α β h) → t.row f g h = [t.root f g]
  | 0, leaf _ => rfl
  | _ + 1, node _ _ _ => if_pos rfl

theorem row_node_of_lt {j : ℕ} (hj : j < h + 1) (b : β) (l r : PTree α β h) :
    (node b l r).row f g j = l.row f g j ++ r.row f g j :=
  if_neg (by omega)

theorem row_of_gt (f : α → γ) (g : β → γ) {j : ℕ} : {h : ℕ} → (t : PTree α β h) → h < j → t.row f g j = []
  | 0, leaf _, hj => if_neg (by omega)
  | h + 1, node _ l r, hj => by
    rw [row, if_neg (by omega), row_of_gt f g l (by omega), row_of_gt f g r (by omega), append_nil]

theorem flatMap_row_children {j : ℕ} (hj : j < h + 1) (ts : List (PTree α β (h + 1))) :
    (ts.flatMap children).flatMap (row f g j) = ts.flatMap (row f g j) := by
  induction ts with
  | nil => rfl
  | cons t ts ih =>
    cases t with
    | node b l r => simp [ih, row_node_of_lt f g hj]

theorem length_bfs (f : ℕ → α → γ) (g : ℕ → β → γ) : ∀ (h d : ℕ) (ts : List (PTree α β h)),
    (bfs f g h d ts).length = (2 ^ (h + 1) - 1) * ts.length
  | 0, d, ts => by simp [bfs]
  | h + 1, d, ts => by
    have hp : 0 < 2 ^ (h + 1) := by positivity
    rw [bfs, length_append, length_map, length_bfs f g h, length_flatMap_children,
      show 2 ^ (h + 1 + 1) - 1 = 1 + (2 ^ (h + 1) - 1) * 2 by rw [pow_succ _ (h + 1)]; omega]
    ring

variable {δ : Type*}

/-- Visiting the layout with the depth of each index is visiting the forest
    with the depth of each node. -/
theorem mapIdx_bfs (f : ℕ → α → γ) (g : ℕ → β → γ) (F : ℕ → γ → δ) :
    ∀ (h d : ℕ) (ts : List (PTree α β h)), ts.length = 2 ^ d →
      (bfs f g h d ts).mapIdx (fun i x => F (depthAt (2 ^ d - 1 + i)) x) =
        bfs (fun d a => F d (f d a)) (fun d b => F d (g d b)) h d ts := by
  have hroots : ∀ {h : ℕ} (d : ℕ) (ts : List (PTree α β h)), ts.length = 2 ^ d →
      (ts.map (root (f d) (g d))).mapIdx (fun i x => F (depthAt (2 ^ d - 1 + i)) x) =
        ts.map (root (fun a => F d (f d a)) (fun b => F d (g d b))) := by
    intro h d ts hts
    refine ext_getElem (by simp) fun i hi _ => ?_
    simp only [length_mapIdx, length_map] at hi
    simp only [getElem_mapIdx, getElem_map]
    rw [depthAt_eq (d := d) (by omega) (by rw [pow_succ]; omega)]
    cases ts[i] <;> rfl
  intro h
  induction h with
  | zero => intro d ts hts; exact hroots d ts hts
  | succ h ih =>
    intro d ts hts
    have hc : (ts.flatMap children).length = 2 ^ (d + 1) := by
      rw [length_flatMap_children, hts, pow_succ]; omega
    have hp : 0 < 2 ^ d := by positivity
    rw [bfs, bfs, mapIdx_append, hroots d ts hts, ← ih (d + 1) _ hc]
    simp only [length_map, hts]
    congr 3
    funext i x
    rw [show 2 ^ d - 1 + (i + 2 ^ d) = 2 ^ (d + 1) - 1 + i by rw [pow_succ]; omega]

theorem mapIdx_bfs_root (f : ℕ → α → γ) (g : ℕ → β → γ) (F : ℕ → γ → δ) (t : PTree α β h) :
    (bfs f g h 0 [t]).mapIdx (fun i x => F (depthAt i) x) =
      bfs (fun d a => F d (f d a)) (fun d b => F d (g d b)) h 0 [t] := by
  simpa using mapIdx_bfs f g F h 0 [t] rfl

/-- A visit that collects nothing outside depth `d₀` collects the row of that
    depth. -/
theorem flatten_bfs_row {f : α → List γ} {g : ℕ → β → List γ} (d₀ : ℕ) (hg : ∀ d b, d ≠ d₀ → g d b = []) :
    ∀ {h d : ℕ} (ts : List (PTree α β h)), d ≤ d₀ → d₀ ≤ d + h → (d + h ≠ d₀ → ∀ a, f a = []) →
      (bfs (fun _ => f) g h d ts).flatten = (ts.flatMap (row f (g d₀) (d + h - d₀))).flatten := by
  have hroots : ∀ {h d : ℕ} (ts : List (PTree α β h)), d ≠ d₀ → (d + h ≠ d₀ → ∀ a, f a = []) →
      (ts.map (root f (g d))).flatten = [] := by
    intro h d ts hd hf
    simp only [flatten_eq_nil_iff, mem_map]
    rintro l ⟨t, -, rfl⟩
    cases t
    · exact hf hd _
    · exact hg d _ hd
  have hdeep : ∀ {h d : ℕ} (ts : List (PTree α β h)), d₀ < d → (d + h ≠ d₀ → ∀ a, f a = []) →
      (bfs (fun _ => f) g h d ts).flatten = [] := by
    intro h
    induction h with
    | zero => intro d ts hd hf; exact hroots ts (by omega) hf
    | succ h ih =>
      intro d ts hd hf
      rw [bfs, flatten_append, hroots ts (by omega) hf, ih _ (by omega) fun _ => hf (by omega)]
      rfl
  have hself : ∀ {h : ℕ} (ts : List (PTree α β h)),
      ts.map (root f (g d₀)) = ts.flatMap (row f (g d₀) h) := by
    intro h ts
    induction ts with
    | nil => rfl
    | cons t ts ih => simp [ih, row_root]
  intro h
  induction h with
  | zero =>
    intro d ts h₁ h₂ hf
    obtain rfl : d = d₀ := by omega
    rw [bfs, hself, Nat.add_zero, Nat.sub_self]
  | succ h ih =>
    intro d ts h₁ h₂ hf
    rcases Nat.lt_or_ge d d₀ with hlt | hge
    · rw [bfs, flatten_append, hroots ts (by omega) hf,
        ih _ (by omega) (by omega) fun _ => hf (by omega), nil_append,
        flatMap_row_children _ _ (by omega), show d + (h + 1) - d₀ = d + 1 + h - d₀ by omega]
    · obtain rfl : d = d₀ := by omega
      rw [bfs, flatten_append, hdeep _ (by omega) fun _ => hf (by omega), append_nil,
        hself, show d + (h + 1) - d = h + 1 by omega]

theorem row_congr_leaf (f f' : α → γ) (g : β → γ) {j : ℕ} (hj : 0 < j) : {h : ℕ} →
    (t : PTree α β h) → t.row f g j = t.row f' g j
  | 0, leaf _ => by rw [row, row, if_neg (by omega), if_neg (by omega)]
  | h + 1, node _ l r => by
    rw [row, row, row_congr_leaf f f' g hj l, row_congr_leaf f f' g hj r]

/-! ## Sums over a tree -/

def total {A : Type*} [Add A] (f : α → A) (g : β → A) : {h : ℕ} → PTree α β h → A
  | 0, leaf a => f a
  | _ + 1, node b l r => g b + (total f g l + total f g r)

theorem sum_bfs {A : Type*} [AddCommMonoid A] (f : α → A) (g : β → A) :
    ∀ {h d : ℕ} (ts : List (PTree α β h)),
      (bfs (fun _ => f) (fun _ => g) h d ts).sum = (ts.map (total f g)).sum := by
  intro h
  induction h with
  | zero =>
    intro d ts
    refine congrArg List.sum (map_congr_left fun t _ => ?_)
    cases t
    rfl
  | succ h ih =>
    intro d ts
    rw [bfs, sum_append, ih]
    induction ts with
    | nil => simp
    | cons t ts iht =>
      cases t with
      | node b l r =>
        simp only [map_cons, sum_cons, flatMap_cons, children_node, cons_append,
          nil_append, root_node, total] at iht ⊢
        rw [← iht]
        abel

/-! ## Properties of all nodes -/

def All (P : α → Prop) (Q : β → Prop) : {h : ℕ} → PTree α β h → Prop
  | 0, leaf a => P a
  | _ + 1, node b l r => Q b ∧ All P Q l ∧ All P Q r

theorem All.imp {P P' : α → Prop} {Q Q' : β → Prop} (hP : ∀ a, P a → P' a) (hQ : ∀ b, Q b → Q' b) :
    {h : ℕ} → {t : PTree α β h} → t.All P Q → t.All P' Q'
  | 0, leaf a, ht => hP a ht
  | _ + 1, node b _ _, ht => ⟨hQ b ht.1, ht.2.1.imp hP hQ, ht.2.2.imp hP hQ⟩

theorem forall_mem_bfs {f : α → γ} {g : β → γ} {P : γ → Prop} :
    ∀ {h d : ℕ} {ts : List (PTree α β h)}, (∀ t ∈ ts, t.All (fun a => P (f a)) fun b => P (g b)) →
      ∀ x ∈ bfs (fun _ => f) (fun _ => g) h d ts, P x := by
  intro h
  induction h with
  | zero =>
    intro d ts hts x hx
    obtain ⟨⟨a⟩, ht, rfl⟩ := mem_map.1 hx
    exact hts _ ht
  | succ h ih =>
    intro d ts hts x hx
    rcases mem_append.1 hx with hx | hx
    · obtain ⟨_ | ⟨b, l, r⟩, ht, rfl⟩ := mem_map.1 hx
      exact (hts _ ht).1
    · refine ih (fun t ht => ?_) x hx
      obtain ⟨_ | ⟨b, l, r⟩, hu, ht⟩ := mem_flatMap.1 ht
      rcases mem_cons.1 ht with rfl | ht
      · exact (hts _ hu).2.1
      · rw [mem_singleton.1 ht]; exact (hts _ hu).2.2

def map {α' : Type*} {β' : Type*} (f : α → α') (g : β → β') : {h : ℕ} → PTree α β h → PTree α' β' h
  | 0, leaf a => leaf (f a)
  | _ + 1, node b l r => node (g b) (l.map f g) (r.map f g)

theorem all_map {α' : Type*} {β' : Type*} {φ : α → α'} {ψ : β → β'} {P : α' → Prop} {Q : β' → Prop} :
    {h : ℕ} → {t : PTree α β h} → ((t.map φ ψ).All P Q ↔ t.All (fun a => P (φ a)) fun b => Q (ψ b))
  | 0, leaf _ => Iff.rfl
  | _ + 1, node _ _ _ => and_congr Iff.rfl (and_congr all_map all_map)

theorem row_map {α' : Type*} {β' : Type*} (φ : α → α') (ψ : β → β') (f : α' → γ) (g : β' → γ)
    (j : ℕ) : {h : ℕ} → (t : PTree α β h) →
      (t.map φ ψ).row f g j = t.row (fun a => f (φ a)) (fun b => g (ψ b)) j
  | 0, leaf _ => rfl
  | _ + 1, node _ l r => by rw [map, row, row, row_map φ ψ f g j l, row_map φ ψ f g j r]

theorem total_map {α' : Type*} {β' : Type*} {A : Type*} [Add A] (φ : α → α') (ψ : β → β')
    (f : α' → A) (g : β' → A) : {h : ℕ} → (t : PTree α β h) →
      (t.map φ ψ).total f g = t.total (fun a => f (φ a)) (fun b => g (ψ b))
  | 0, leaf _ => rfl
  | _ + 1, node _ l r => by rw [map, total, total, total_map φ ψ f g l, total_map φ ψ f g r]

theorem map_bfs {α' : Type*} {β' : Type*} (φ : α → α') (ψ : β → β') (f : ℕ → α' → γ)
    (g : ℕ → β' → γ) : ∀ {h d : ℕ} (ts : List (PTree α β h)),
      bfs f g h d (ts.map (map φ ψ)) = bfs (fun d a => f d (φ a)) (fun d b => g d (ψ b)) h d ts := by
  have hroots : ∀ {h : ℕ} (d : ℕ) (ts : List (PTree α β h)), (ts.map (map φ ψ)).map (root (f d) (g d)) =
      ts.map (root (fun a => f d (φ a)) (fun b => g d (ψ b))) := by
    intro h d ts
    rw [map_map]
    refine map_congr_left fun t _ => ?_
    cases t <;> rfl
  intro h
  induction h with
  | zero => intro d ts; exact hroots d ts
  | succ h ih =>
    intro d ts
    have hc : (ts.map (map φ ψ)).flatMap children = (ts.flatMap children).map (map φ ψ) := by
      induction ts with
      | nil => rfl
      | cons t ts iht => cases t; simp only [map_cons, flatMap_cons, iht]; rfl
    rw [bfs, bfs, hroots, hc, ih]

theorem bfs_map (F : γ → δ) (f : ℕ → α → γ) (g : ℕ → β → γ) :
    ∀ {h d : ℕ} (ts : List (PTree α β h)),
      (bfs f g h d ts).map F = bfs (fun d a => F (f d a)) (fun d b => F (g d b)) h d ts := by
  have hroots : ∀ {h : ℕ} (d : ℕ) (ts : List (PTree α β h)), (ts.map (root (f d) (g d))).map F =
      ts.map (root (fun a => F (f d a)) (fun b => F (g d b))) := by
    intro h d ts
    rw [map_map]
    refine map_congr_left fun t _ => ?_
    cases t <;> rfl
  intro h
  induction h with
  | zero => intro d ts; exact hroots d ts
  | succ h ih => intro d ts; rw [bfs, bfs, map_append, hroots, ih]

end PTree

end MinaRust
