/-
  Ordered maps: association lists that carry the proof that their keys increase.

  Every operation is described by the entries it leaves and by what a key then maps to.
-/
import Mathlib

namespace MinaRust

open List Option

@[ext]
structure OrdMap (K V : Type) [LinearOrder K] where
  entries : List (K × V)
  sorted : entries.Pairwise fun a b => a.1 < b.1

namespace OrdMap

variable {K V : Type} [LinearOrder K]

def empty : OrdMap K V := ⟨[], .nil⟩

def get (m : OrdMap K V) (k : K) : Option V :=
  (m.entries.find? fun e => decide (e.1 = k)).map Prod.snd

def contains (m : OrdMap K V) (k : K) : Bool := (m.get k).isSome

def keys (m : OrdMap K V) : List K := m.entries.map Prod.fst

def insert (m : OrdMap K V) (k : K) (v : V) : OrdMap K V :=
  ⟨m.entries.filter (fun e => decide (e.1 < k)) ++ (k, v) :: m.entries.filter (fun e => decide (k < e.1)), by
    refine pairwise_append.2 ⟨m.sorted.filter _, pairwise_cons.2 ⟨?_, m.sorted.filter _⟩, ?_⟩
    · intro e mem
      simpa using (mem_filter.1 mem).2
    · intro a before b after
      have lt : a.1 < k := by simpa using (mem_filter.1 before).2
      rcases mem_cons.1 after with rfl | after
      · exact lt
      · exact lt.trans (by simpa using (mem_filter.1 after).2)⟩

def retain (m : OrdMap K V) (keep : K → V → Bool) : OrdMap K V :=
  ⟨m.entries.filter fun e => keep e.1 e.2, m.sorted.filter _⟩

def remove (m : OrdMap K V) (k : K) : OrdMap K V := m.retain fun k' _ => decide (k' ≠ k)

def mapValues {W : Type} (m : OrdMap K V) (f : K → V → W) : OrdMap K W :=
  ⟨m.entries.map fun e => (e.1, f e.1 e.2), m.sorted.map _ fun _ _ lt => lt⟩

def modify (m : OrdMap K V) (k : K) (f : V → V) : OrdMap K V :=
  m.mapValues fun k' v => if k' = k then f v else v

def rangeFrom (m : OrdMap K V) (lo : K) : List (K × V) := m.entries.filter fun e => decide (lo ≤ e.1)

/-! ## Entries -/

variable {k : K}

theorem eq_of_mem (m : OrdMap K V) {v w : V} (hv : (k, v) ∈ m.entries) (hw : (k, w) ∈ m.entries) : v = w := by
  have sorted := m.sorted
  generalize m.entries = es at sorted hv hw
  induction es with
  | nil => cases hv
  | cons e es ih =>
    obtain ⟨first, rest⟩ := pairwise_cons.1 sorted
    rcases mem_cons.1 hv with rfl | hv <;> rcases mem_cons.1 hw with eq | hw
    · cases eq
      rfl
    · exact absurd (first _ hw) (lt_irrefl k)
    · exact absurd (first _ hv) (by simp [← eq])
    · exact ih rest hv hw

variable {m : OrdMap K V}

theorem get_eq_some {v : V} : m.get k = some v ↔ (k, v) ∈ m.entries := by
  constructor
  · intro got
    obtain ⟨⟨k', v'⟩, found, rfl⟩ := map_eq_some_iff.1 got
    have eq : k' = k := by simpa using List.find?_some found
    exact eq ▸ mem_of_find?_eq_some found
  · intro mem
    cases found : m.entries.find? fun e => decide (e.1 = k) with
    | none => simpa using List.find?_eq_none.1 found _ mem
    | some e =>
      have key : e.1 = k := by simpa using List.find?_some found
      have stored : (k, e.2) ∈ m.entries := key ▸ mem_of_find?_eq_some found
      rw [get, found, m.eq_of_mem mem stored]
      rfl

theorem get_eq_none : m.get k = none ↔ ∀ v, (k, v) ∉ m.entries := by
  simp [eq_none_iff_forall_ne_some, ne_eq, get_eq_some]

theorem get_congr {m' : OrdMap K V} (same : ∀ v, (k, v) ∈ m.entries ↔ (k, v) ∈ m'.entries) :
    m.get k = m'.get k :=
  Option.ext fun v => by rw [get_eq_some, get_eq_some, same]

variable {e : K × V}

theorem mem_insert {v : V} : e ∈ (m.insert k v).entries ↔ e = (k, v) ∨ e.1 ≠ k ∧ e ∈ m.entries := by
  simp only [insert, mem_append, mem_cons, mem_filter, decide_eq_true_eq, ne_iff_lt_or_gt]
  tauto

theorem mem_retain {keep : K → V → Bool} : e ∈ (m.retain keep).entries ↔ e ∈ m.entries ∧ keep e.1 e.2 = true :=
  mem_filter

theorem mem_remove : e ∈ (m.remove k).entries ↔ e ∈ m.entries ∧ e.1 ≠ k := by
  rw [remove, mem_retain, decide_eq_true_eq]

theorem mem_mapValues {W : Type} {f : K → V → W} {w : W} :
    (k, w) ∈ (m.mapValues f).entries ↔ ∃ v, (k, v) ∈ m.entries ∧ f k v = w := by
  simp only [mapValues, List.mem_map, Prod.exists, Prod.mk.injEq]
  constructor
  · rintro ⟨k', v, mem, rfl, rfl⟩
    exact ⟨v, mem, rfl⟩
  · rintro ⟨v, mem, rfl⟩
    exact ⟨k, v, mem, rfl, rfl⟩

theorem mem_modify {f : V → V} {k' : K} {w : V} : (k', w) ∈ (m.modify k f).entries ↔
      ∃ v, (k', v) ∈ m.entries ∧ (if k' = k then f v else v) = w :=
  mem_mapValues

theorem mem_rangeFrom {lo : K} : e ∈ m.rangeFrom lo ↔ e ∈ m.entries ∧ lo ≤ e.1 := by
  rw [rangeFrom, mem_filter, decide_eq_true_eq]

theorem sorted_rangeFrom (m : OrdMap K V) (lo : K) : (m.rangeFrom lo).Pairwise fun a b => a.1 < b.1 :=
  m.sorted.filter _

theorem le_of_getLast? {last : K × V} (h : m.entries.getLast? = some last) (mem : e ∈ m.entries) :
    e.1 ≤ last.1 := by
  obtain ⟨es, split⟩ := List.getLast?_eq_some_iff.1 h
  have sorted := m.sorted
  rw [split] at mem sorted
  rcases mem_append.1 mem with before | eq
  · exact ((pairwise_append.1 sorted).2.2 e before last (mem_singleton.2 rfl)).le
  · rw [mem_singleton.1 eq]

theorem length_retain_le (m : OrdMap K V) (keep : K → V → Bool) :
    (m.retain keep).entries.length ≤ m.entries.length :=
  length_filter_le ..

variable (f : K → ℕ)

def weight (m : OrdMap K V) : ℕ := (m.entries.map fun e => f e.1).sum

theorem weight_insert_le (m : OrdMap K V) (k : K) (v : V) : (m.insert k v).weight f ≤ m.weight f + f k := by
  have parts : ∀ es : List (K × V), ((es.filter fun e => decide (e.1 < k)).map fun e => f e.1).sum +
      ((es.filter fun e => decide (k < e.1)).map fun e => f e.1).sum ≤ (es.map fun e => f e.1).sum := by
    intro es
    induction es with
    | nil => simp
    | cons e es ih =>
      rcases lt_trichotomy e.1 k with lt | eq | gt
      · simp [lt, lt.not_gt]
        omega
      · simp [eq]
        omega
      · simp [gt, gt.not_gt]
        omega
  have := parts m.entries
  simp only [weight, insert, map_append, map_cons, sum_append, sum_cons]
  omega

theorem weight_remove_add_le (found : m.get k ≠ none) : (m.remove k).weight f + f k ≤ m.weight f := by
  obtain ⟨v, mem⟩ := ne_none_iff_exists'.1 found
  have parts : ∀ es : List (K × V), (k, v) ∈ es →
      ((es.filter fun e => decide (e.1 ≠ k)).map fun e => f e.1).sum + f k ≤ (es.map fun e => f e.1).sum := by
    intro es
    induction es with
    | nil => nofun
    | cons e es ih =>
      intro mem
      have rest : ((es.filter fun e => decide (e.1 ≠ k)).map fun e => f e.1).sum ≤ (es.map fun e => f e.1).sum :=
        (filter_sublist.map _).sum_le_sum fun _ _ => Nat.zero_le _
      rcases mem_cons.1 mem with rfl | mem
      · simp at rest ⊢
        omega
      · have := ih mem
        by_cases eq : e.1 = k
        · simp [eq] at this ⊢
          omega
        · simp [eq] at this ⊢
          omega
  exact parts m.entries (get_eq_some.1 mem)

@[simp] theorem weight_modify (m : OrdMap K V) (k : K) (g : V → V) : (m.modify k g).weight f = m.weight f := by
  simp [weight, modify, mapValues, Function.comp_def]

theorem length_insert_le (m : OrdMap K V) (k : K) (v : V) :
    (m.insert k v).entries.length ≤ m.entries.length + 1 := by
  simpa [weight] using weight_insert_le (fun _ => 1) m k v

/-! ## Lookup -/

@[simp] theorem get_empty (k : K) : (empty : OrdMap K V).get k = none := rfl

variable (m : OrdMap K V)

theorem get_insert (k : K) (v : V) (k' : K) :
    (m.insert k v).get k' = if k' = k then some v else m.get k' := by
  split
  · next eq => exact get_eq_some.2 (mem_insert.2 (.inl (by rw [eq])))
  · next ne => exact get_congr fun w => by simp [mem_insert, ne]

theorem get_remove (k k' : K) : (m.remove k).get k' = if k' = k then none else m.get k' := by
  split
  · next eq => exact get_eq_none.2 fun v mem => (mem_remove.1 mem).2 eq
  · next ne => exact get_congr fun w => by simp [mem_remove, ne]

theorem get_mapValues {W : Type} (f : K → V → W) (k : K) :
    (m.mapValues f).get k = (m.get k).map (f k) := by
  refine Option.ext fun w => ?_
  rw [get_eq_some, mem_mapValues, map_eq_some_iff]
  simp only [get_eq_some]

theorem get_modify (k : K) (f : V → V) (k' : K) :
    (m.modify k f).get k' = if k' = k then (m.get k').map f else m.get k' := by
  rw [modify, get_mapValues]
  split
  · simp_all
  · cases m.get k' <;> simp_all

/-! ## Counting -/

theorem filter_key (k : K) :
    m.entries.filter (fun e => decide (e.1 = k)) = (m.get k).toList.map fun v => (k, v) := by
  have sorted := m.sorted
  rw [get]
  generalize m.entries = es at sorted
  induction es with
  | nil => rfl
  | cons e es ih =>
    obtain ⟨first, rest⟩ := pairwise_cons.1 sorted
    obtain ⟨k', v⟩ := e
    by_cases eq : k' = k
    · subst eq
      have others : es.filter (fun e => decide (e.1 = k')) = [] :=
        filter_eq_nil_iff.2 fun x mem => by simpa using (first x mem).ne'
      simp [others]
    · simp [eq, ih rest]

theorem countP_entries (p : K × V → Bool) (k : K) :
    m.entries.countP p = (m.entries.filter fun e => decide (e.1 < k)).countP p +
      ((m.get k).toList.map fun v => (k, v)).countP p +
      (m.entries.filter fun e => decide (k < e.1)).countP p := by
  rw [← filter_key]
  generalize m.entries = es
  induction es with
  | nil => rfl
  | cons e es ih =>
    rcases lt_trichotomy e.1 k with lt | eq | gt
    · simp [lt, lt.ne, lt.not_gt, countP_cons, ih]
      omega
    · simp [eq, countP_cons, ih]
      omega
    · simp [gt, gt.ne', gt.not_gt, countP_cons, ih]
      omega

theorem countP_insert (p : K × V → Bool) (k : K) (v : V) :
    (m.insert k v).entries.countP p + ((m.get k).toList.map fun v => (k, v)).countP p =
      m.entries.countP p + (p (k, v)).toNat := by
  have split := m.countP_entries p k
  simp only [insert, countP_append, countP_cons]
  cases p (k, v) <;> simp only [if_true, if_false, Bool.false_eq_true, Bool.toNat_true, Bool.toNat_false] <;>
    omega

theorem countP_remove (p : K × V → Bool) (k : K) :
    (m.remove k).entries.countP p + ((m.get k).toList.map fun v => (k, v)).countP p =
      m.entries.countP p := by
  have split := (m.remove k).countP_entries p k
  have split' := m.countP_entries p k
  have others {q : K × V → Bool} (ne : ∀ e, q e = true → e.1 ≠ k) :
      (m.remove k).entries.filter q = m.entries.filter q := by
    rw [remove, retain, List.filter_filter]
    refine List.filter_congr fun e _ => ?_
    cases here : q e with
    | false => rfl
    | true => simpa using ne e here
  rw [others fun e lt => (of_decide_eq_true lt).ne, others fun e lt => (of_decide_eq_true lt).ne',
    get_remove, if_pos rfl] at split
  simp only [toList_none, map_nil, countP_nil] at split
  omega

theorem length_insert (k : K) (v : V) :
    (m.insert k v).entries.length + (m.get k).toList.length = m.entries.length + 1 := by
  simpa [countP_true] using m.countP_insert (fun _ => true) k v

end OrdMap

end MinaRust
