/-
  Sparse tables: cells stored by row, with an index of the rows of each column.

  `Consistent`: the index lists exactly the rows that have a cell in the column and no column
  without a row.  Every operation keeps it, and is described by what the cells are
  afterwards.  A row may stay behind without cells.
-/
import MinaRust.Lib.OrdMap

namespace MinaRust

open List Option OrdMap

/-- A set of keys in their order. -/
abbrev OrdSet (K : Type) [LinearOrder K] : Type := OrdMap K Unit

structure SparseTable (R C V : Type) [LinearOrder R] [LinearOrder C] where
  rows : OrdMap R (OrdMap C V)
  columns : OrdMap C (OrdSet R)

namespace SparseTable

variable {R C V : Type} [LinearOrder R] [LinearOrder C]

def empty : SparseTable R C V := ⟨.empty, .empty⟩

variable (rows : OrdMap R (OrdMap C V)) (keep : R → C → V → Bool) (columns : OrdMap C (OrdSet R)) (c : C)
  (acc : OrdMap R (OrdMap C V) × OrdSet R) (r : R)

def cellOf (c : C) : Option V := (rows.get r).bind (·.get c)

def cell (t : SparseTable R C V) (r : R) (c : C) : Option V := cellOf t.rows r c

def lists : Bool :=
  (columns.get c).any fun rs => rs.contains r

/-! ## The operations -/

def set (t : SparseTable R C V) (r : R) (c : C) (v : V) : SparseTable R C V where
  rows := t.rows.insert r (((t.rows.get r).getD .empty).insert c v)
  columns := t.columns.insert c (((t.columns.get c).getD .empty).insert r ())

def modifyRow (t : SparseTable R C V) (r : R) (f : C → V → V) : SparseTable R C V :=
  { t with rows := t.rows.modify r fun cells => cells.mapValues f }

def modifyCell (t : SparseTable R C V) (r : R) (c : C) (f : V → V) : SparseTable R C V :=
  t.modifyRow r fun c' v => if c' = c then f v else v

def unlist : OrdMap C (OrdSet R) :=
  match columns.get c with
  | none => columns
  | some rs =>
    let rs := rs.remove r
    if rs.entries.isEmpty then columns.remove c else columns.insert c rs

def removeRow (t : SparseTable R C V) (r : R) : SparseTable R C V :=
  match t.rows.get r with
  | none => t
  | some cells => ⟨t.rows.remove r, cells.keys.foldl (fun cols c => unlist cols c r) t.columns⟩

def removeCell (t : SparseTable R C V) (r : R) (c : C) : SparseTable R C V :=
  match t.rows.get r with
  | none => t
  | some cells => ⟨t.rows.insert r (cells.remove c), unlist t.columns c r⟩

def removeColumn (t : SparseTable R C V) (c : C) : SparseTable R C V :=
  match t.columns.get c with
  | none => t
  | some rs =>
    ⟨rs.keys.foldl (fun rows r => rows.modify r (·.remove c)) t.rows, t.columns.remove c⟩

/-- One row of a column: its cell stays when it satisfies `keep`. -/
def retainCell : OrdMap R (OrdMap C V) × OrdSet R :=
  match cellOf acc.1 r c with
  | some v => if keep r c v then acc else (acc.1.modify r (·.remove c), acc.2.remove r)
  | none => (acc.1, acc.2.remove r)

def retainColumn (t : SparseTable R C V) (keep : R → C → V → Bool) (c : C) : SparseTable R C V :=
  match t.columns.get c with
  | none => t
  | some rs =>
    let (rows, rs) := rs.keys.foldl (retainCell keep c) (t.rows, rs)
    ⟨rows, if rs.entries.isEmpty then t.columns.remove c else t.columns.insert c rs⟩

def retain (t : SparseTable R C V) (keep : R → C → V → Bool) : SparseTable R C V :=
  t.columns.keys.foldl (fun t c => t.retainColumn keep c) t

/-! ## Consistency -/

/-- **The index lists exactly the cells, and no column without a row.** -/
structure Consistent (t : SparseTable R C V) : Prop where
  lists : ∀ r c, lists t.columns c r = (t.cell r c).isSome
  nonempty : ∀ c rs, t.columns.get c = some rs → rs.entries ≠ []

theorem Consistent.empty : Consistent (empty : SparseTable R C V) :=
  ⟨fun _ _ => rfl, fun _ _ found => nomatch found⟩

def NoEmpty : Prop := ∀ c rs, columns.get c = some rs → rs.entries ≠ []

theorem contains_remove (s : OrdSet R) (r r' : R) :
    (s.remove r).contains r' = (s.contains r' && !decide (r' = r)) := by
  rw [OrdMap.contains, get_remove]
  split <;> simp [*, OrdMap.contains]

theorem contains_iff {K W : Type} [LinearOrder K] {m : OrdMap K W} {k : K} :
    m.contains k = true ↔ k ∈ m.keys := by
  rw [OrdMap.contains, Option.isSome_iff_exists, OrdMap.keys]
  simp [OrdMap.get_eq_some, List.mem_map, Prod.exists, exists_and_right, exists_eq_right]

theorem lists_replace (rs : OrdSet R) (c' : C) (r : R) :
    lists (if rs.entries.isEmpty then columns.remove c else columns.insert c rs) c' r =
      if c' = c then rs.contains r else lists columns c' r := by
  unfold lists
  split
  · next none =>
    rw [get_remove]
    have absent : rs.contains r = false := by
      rw [List.isEmpty_iff] at none
      simp [OrdMap.contains, OrdMap.get, none]
    split <;> simp [absent]
  · rw [get_insert]
    split <;> simp

theorem noEmpty_replace {columns : OrdMap C (OrdSet R)} (h : NoEmpty columns) (c : C) (rs : OrdSet R) :
    NoEmpty (if rs.entries.isEmpty then columns.remove c else columns.insert c rs) := by
  intro c' rs' found
  split at found
  · rw [get_remove] at found
    split at found
    · cases found
    · exact h c' rs' found
  · next some =>
    rw [get_insert] at found
    split at found
    · cases found
      simpa using some
    · exact h c' rs' found

theorem lists_unlist (c' : C) (r' : R) :
    lists (unlist columns c r) c' r' = (lists columns c' r' && !(decide (c' = c) && decide (r' = r))) := by
  unfold unlist
  cases found : columns.get c with
  | none =>
    by_cases eq : c' = c
    · simp [lists, eq, found]
    · simp [eq]
  | some rs =>
    rw [lists_replace]
    split
    · next eq => simp [lists, eq, found, contains_remove]
    · next ne => simp [ne]

theorem noEmpty_unlist {columns : OrdMap C (OrdSet R)} (h : NoEmpty columns) (c : C) (r : R) :
    NoEmpty (unlist columns c r) := by
  unfold unlist
  cases columns.get c with
  | none => exact h
  | some rs => exact noEmpty_replace h c _

theorem unlist_foldl (r : R) : ∀ (cs : List C) (columns : OrdMap C (OrdSet R)),
    (NoEmpty columns → NoEmpty (cs.foldl (fun cols c => unlist cols c r) columns)) ∧
    ∀ c' r', lists (cs.foldl (fun cols c => unlist cols c r) columns) c' r' =
      (lists columns c' r' && !(decide (c' ∈ cs) && decide (r' = r)))
  | [], columns => ⟨id, by simp⟩
  | c :: cs, columns => by
    obtain ⟨keeps, rest⟩ := unlist_foldl r cs (unlist columns c r)
    refine ⟨fun h => keeps (noEmpty_unlist h c r), fun c' r' => ?_⟩
    rw [foldl_cons, rest, lists_unlist]
    by_cases eq : c' = c <;> by_cases eq' : r' = r <;> simp [eq, eq']

theorem cellOf_modify_remove (c : C) (r' : R) (c' : C) : cellOf (rows.modify r (·.remove c)) r' c' =
      if r' = r ∧ c' = c then none else cellOf rows r' c' := by
  rw [cellOf, get_modify]
  by_cases eq : r' = r
  · cases found : rows.get r' <;> by_cases eq' : c' = c <;>
      simp_all [cellOf, get_remove]
  · simp [eq, cellOf]

theorem removeColumn_foldl (c : C) : ∀ (rs : List R) (rows : OrdMap R (OrdMap C V)) (r' : R) (c' : C),
    cellOf (rs.foldl (fun rows r => rows.modify r (·.remove c)) rows) r' c' =
      if r' ∈ rs ∧ c' = c then none else cellOf rows r' c'
  | [], rows, r', c' => by simp
  | r :: rs, rows, r', c' => by
    rw [foldl_cons, removeColumn_foldl c rs, cellOf_modify_remove]
    by_cases eq : r' = r <;> by_cases eq' : c' = c <;> simp [eq, eq']

theorem retainCell_spec : (∀ r' c', cellOf (retainCell keep c acc r).1 r' c' =
      if r' = r ∧ c' = c then (cellOf acc.1 r' c').filter (keep r' c') else cellOf acc.1 r' c') ∧
    ∀ r', (retainCell keep c acc r).2.contains r' =
      (acc.2.contains r' && (!decide (r' = r) || (cellOf acc.1 r' c).any (keep r' c))) := by
  unfold retainCell
  cases found : cellOf acc.1 r c with
  | none =>
    dsimp only
    refine ⟨fun r' c' => ?_, fun r' => ?_⟩
    · split
      · next eq => rw [eq.1, eq.2, found]; rfl
      · rfl
    · rw [contains_remove]
      by_cases eq : r' = r <;> simp [eq, found]
  | some v =>
    dsimp only
    by_cases stays : keep r c v = true
    · rw [if_pos stays]
      refine ⟨fun r' c' => ?_, fun r' => ?_⟩
      · split
        · next eq => rw [eq.1, eq.2, found, filter_some, if_pos stays]
        · rfl
      · by_cases eq : r' = r <;> simp [eq, found, stays]
    · rw [if_neg stays]
      refine ⟨fun r' c' => ?_, fun r' => ?_⟩
      · rw [cellOf_modify_remove]
        split
        · next eq => rw [eq.1, eq.2, found, filter_some, if_neg stays]
        · rfl
      · rw [contains_remove]
        by_cases eq : r' = r <;> simp [eq, found, stays]

theorem retainCell_foldl (keep : R → C → V → Bool) (c : C) :
    ∀ (rs : List R) (acc : OrdMap R (OrdMap C V) × OrdSet R),
    (∀ r' c', cellOf (rs.foldl (retainCell keep c) acc).1 r' c' =
      if r' ∈ rs ∧ c' = c then (cellOf acc.1 r' c').filter (keep r' c') else cellOf acc.1 r' c') ∧
    ∀ r', (rs.foldl (retainCell keep c) acc).2.contains r' =
      (acc.2.contains r' && (!decide (r' ∈ rs) || (cellOf acc.1 r' c).any (keep r' c)))
  | [], acc => ⟨by simp, by simp⟩
  | r :: rs, acc => by
    obtain ⟨first, firstRows⟩ := retainCell_spec keep c acc r
    obtain ⟨rest, restRows⟩ := retainCell_foldl keep c rs (retainCell keep c acc r)
    refine ⟨fun r' c' => ?_, fun r' => ?_⟩
    · by_cases eq : r' = r <;> by_cases eq' : c' = c <;> by_cases mem : r' ∈ rs <;>
        simp_all [Option.filter_filter]
    · rw [foldl_cons, restRows, firstRows, first]
      by_cases eq : r' = r <;> by_cases mem : r' ∈ rs <;>
        cases cellOf acc.1 r' c <;> simp_all [Option.filter]

variable {t : SparseTable R C V}

theorem cell_set (t : SparseTable R C V) (r : R) (c : C) (v : V) (r' : R) (c' : C) :
    (t.set r c v).cell r' c' = if r' = r ∧ c' = c then some v else t.cell r' c' := by
  unfold cell cellOf set
  rw [get_insert]
  by_cases eq : r' = r
  · by_cases eq' : c' = c
    · simp [eq, eq', get_insert]
    · cases found : t.rows.get r <;> simp [eq, eq', found, get_insert]
  · simp [eq]

theorem Consistent.set (h : t.Consistent) (r : R) (c : C) (v : V) : (t.set r c v).Consistent := by
  refine ⟨fun r' c' => ?_, fun c' rs found => ?_⟩
  · have old := h.lists r' c'
    rw [cell_set, SparseTable.lists, SparseTable.set, get_insert]
    rw [SparseTable.lists] at old
    by_cases eq : c' = c
    · subst eq
      cases found : t.columns.get c' <;> by_cases eq' : r' = r <;>
        simp_all [OrdMap.contains, get_insert]
    · simp [eq, old]
  · rw [SparseTable.set, get_insert] at found
    split at found
    · cases found
      simp [OrdMap.insert]
    · exact h.nonempty c' rs found

theorem cell_modifyRow (t : SparseTable R C V) (r : R) (f : C → V → V) (r' : R) (c : C) :
    (t.modifyRow r f).cell r' c = if r' = r then (t.cell r' c).map (f c) else t.cell r' c := by
  unfold cell cellOf modifyRow
  rw [get_modify]
  split
  · cases t.rows.get r' <;> simp [get_mapValues]
  · rfl

theorem isSome_modifyRow (t : SparseTable R C V) (r : R) (f : C → V → V) (r' : R) (c : C) :
    ((t.modifyRow r f).cell r' c).isSome = (t.cell r' c).isSome := by
  rw [cell_modifyRow]
  split <;> simp

theorem Consistent.modifyRow (h : t.Consistent) (r : R) (f : C → V → V) : (t.modifyRow r f).Consistent := by
  refine ⟨fun r' c => ?_, h.nonempty⟩
  have old : SparseTable.lists (t.modifyRow r f).columns c r' = _ := h.lists r' c
  rw [old, isSome_modifyRow]

theorem cell_removeRow (t : SparseTable R C V) (r r' : R) (c : C) :
    (t.removeRow r).cell r' c = if r' = r then none else t.cell r' c := by
  unfold removeRow
  cases found : t.rows.get r with
  | none =>
    dsimp only
    split
    · next eq => simp [cell, cellOf, eq, found]
    · rfl
  | some cells =>
    dsimp only [cell, cellOf]
    rw [get_remove]
    split <;> rfl

theorem Consistent.removeRow (h : t.Consistent) (r : R) : (t.removeRow r).Consistent := by
  have cells := cell_removeRow t r
  unfold SparseTable.removeRow at cells ⊢
  cases found : t.rows.get r with
  | none => exact h
  | some row =>
    rw [found] at cells
    dsimp only at cells ⊢
    obtain ⟨keeps, listed⟩ := unlist_foldl r row.keys t.columns
    refine ⟨fun r' c => ?_, keeps h.nonempty⟩
    rw [listed, cells, h.lists]
    by_cases eq : r' = r
    · -- the row is removed from the columns of all its cells
      have keys : (t.cell r c).isSome = decide (c ∈ row.keys) := by
        rw [cell, cellOf, found, bind_some]
        exact Bool.eq_iff_iff.2 (contains_iff.trans (decide_eq_true_iff).symm)
      simp [eq, keys]
    · simp [eq]

theorem cell_removeCell (t : SparseTable R C V) (r : R) (c : C) (r' : R) (c' : C) :
    (t.removeCell r c).cell r' c' = if r' = r ∧ c' = c then none else t.cell r' c' := by
  unfold removeCell
  cases found : t.rows.get r with
  | none =>
    dsimp only
    split
    · next eq => simp [cell, cellOf, eq.1, found]
    · rfl
  | some cells =>
    dsimp only [cell, cellOf]
    rw [get_insert]
    by_cases eq : r' = r
    · by_cases eq' : c' = c <;> simp [eq, eq', found, get_remove]
    · simp [eq]

theorem Consistent.removeCell (h : t.Consistent) (r : R) (c : C) : (t.removeCell r c).Consistent := by
  have cells := cell_removeCell t r c
  unfold SparseTable.removeCell at cells ⊢
  cases found : t.rows.get r with
  | none => exact h
  | some row =>
    rw [found] at cells
    dsimp only at cells ⊢
    refine ⟨fun r' c' => ?_, noEmpty_unlist h.nonempty c r⟩
    rw [lists_unlist, cells, h.lists]
    by_cases eq : r' = r <;> by_cases eq' : c' = c <;> simp [eq, eq']

theorem Consistent.cell_eq_none (h : t.Consistent) {c : C} (unlisted : t.columns.get c = none) (r : R) :
    t.cell r c = none := by
  have listed := h.lists r c
  rw [SparseTable.lists, unlisted] at listed
  exact isNone_iff_eq_none.1 (by simpa using listed.symm)

theorem Consistent.isSome_cell (h : t.Consistent) {c : C} {rs : OrdSet R} (found : t.columns.get c = some rs)
    (r : R) : (t.cell r c).isSome = decide (r ∈ rs.keys) := by
  rw [← h.lists, SparseTable.lists, found]
  exact Bool.eq_iff_iff.2 (contains_iff.trans (decide_eq_true_iff).symm)

theorem Consistent.cell_removeColumn (h : t.Consistent) (c : C) (r' : R) (c' : C) :
    (t.removeColumn c).cell r' c' = if c' = c then none else t.cell r' c' := by
  unfold SparseTable.removeColumn
  cases found : t.columns.get c with
  | none =>
    dsimp only
    split
    · next eq => rw [eq, h.cell_eq_none found]
    · rfl
  | some rs =>
    have listed := h.isSome_cell found r'
    dsimp only [cell] at listed ⊢
    rw [removeColumn_foldl]
    by_cases eq : c' = c <;> by_cases mem : r' ∈ rs.keys <;> simp_all

theorem Consistent.removeColumn (h : t.Consistent) (c : C) : (t.removeColumn c).Consistent := by
  have cells := h.cell_removeColumn c
  unfold SparseTable.removeColumn at cells ⊢
  cases found : t.columns.get c with
  | none => exact h
  | some rs =>
    rw [found] at cells
    dsimp only at cells ⊢
    refine ⟨fun r' c' => ?_, fun c' rs' found' => ?_⟩
    · rw [cells, SparseTable.lists, get_remove]
      split
      · rfl
      · exact h.lists r' c'
    · rw [get_remove] at found'
      split at found'
      · cases found'
      · exact h.nonempty c' rs' found'

theorem Consistent.cell_retainColumn (h : t.Consistent) (keep : R → C → V → Bool) (c : C) (r' : R) (c' : C) :
    (t.retainColumn keep c).cell r' c' =
      if c' = c then (t.cell r' c').filter (keep r' c') else t.cell r' c' := by
  unfold SparseTable.retainColumn
  cases found : t.columns.get c with
  | none =>
    dsimp only
    split
    · next eq => rw [eq, h.cell_eq_none found, filter_none]
    · rfl
  | some rs =>
    have listed := h.isSome_cell found r'
    have cells := (retainCell_foldl keep c rs.keys (t.rows, rs)).1 r' c'
    dsimp only [cell] at listed cells ⊢
    by_cases eq : c' = c <;> by_cases mem : r' ∈ rs.keys <;> simp_all

theorem Consistent.retainColumn (h : t.Consistent) (keep : R → C → V → Bool) (c : C) :
    (t.retainColumn keep c).Consistent := by
  have cells := h.cell_retainColumn keep c
  unfold SparseTable.retainColumn at cells ⊢
  cases found : t.columns.get c with
  | none => exact h
  | some rs =>
    rw [found] at cells
    have rows := (retainCell_foldl keep c rs.keys (t.rows, rs)).2
    dsimp only at cells ⊢
    generalize rs.keys.foldl (retainCell keep c) (t.rows, rs) = acc at cells rows ⊢
    obtain ⟨newRows, newRs⟩ := acc
    dsimp only at cells rows ⊢
    refine ⟨fun r' c' => ?_, noEmpty_replace h.nonempty c newRs⟩
    rw [lists_replace, cells]
    split
    · next eq =>
      have listed := h.isSome_cell found r'
      have mem : rs.contains r' = decide (r' ∈ rs.keys) :=
        Bool.eq_iff_iff.2 (contains_iff.trans (decide_eq_true_iff).symm)
      rw [rows, eq, mem, ← listed]
      change ((t.cell r' c).isSome && (!(t.cell r' c).isSome || (t.cell r' c).any (keep r' c))) = _
      cases t.cell r' c with
      | none => rfl
      | some v => by_cases stays : keep r' c v = true <;> simp [Option.filter, stays]
    · exact h.lists r' c'

theorem Consistent.retain_foldl (keep : R → C → V → Bool) : ∀ (cs : List C) {t : SparseTable R C V},
    t.Consistent → (cs.foldl (fun t c => t.retainColumn keep c) t).Consistent ∧
      ∀ r' c', (cs.foldl (fun t c => t.retainColumn keep c) t).cell r' c' =
        if c' ∈ cs then (t.cell r' c').filter (keep r' c') else t.cell r' c'
  | [], t, h => ⟨h, by simp⟩
  | c :: cs, t, h => by
    obtain ⟨rest, cells⟩ := Consistent.retain_foldl keep cs (h.retainColumn keep c)
    refine ⟨rest, fun r' c' => ?_⟩
    rw [foldl_cons, cells, h.cell_retainColumn]
    by_cases eq : c' = c <;> by_cases mem : c' ∈ cs <;> simp_all [Option.filter_filter]

theorem Consistent.retain (h : t.Consistent) (keep : R → C → V → Bool) : (t.retain keep).Consistent :=
  (Consistent.retain_foldl keep t.columns.keys h).1

theorem Consistent.cell_retain (h : t.Consistent) (keep : R → C → V → Bool) (r : R) (c : C) :
    (t.retain keep).cell r c = (t.cell r c).filter (keep r c) := by
  rw [SparseTable.retain, (Consistent.retain_foldl keep t.columns.keys h).2]
  split
  · rfl
  · next absent =>
    have unlisted : t.columns.get c = none := by
      by_contra some
      exact absent (contains_iff.1 (isSome_iff_ne_none.2 some))
    rw [h.cell_eq_none unlisted, filter_none]

end SparseTable

end MinaRust
