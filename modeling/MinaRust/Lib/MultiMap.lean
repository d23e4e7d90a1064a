/-
  Indexes: hash maps from keys to non-empty hash sets.

  `Indexes map key P` says that `map` holds exactly the values in `P`, each under its
  own key, and no empty set.  `Indexes.insert` and `Indexes.remove` are the two
  updates.
-/
import MinaRust.Lib.HashMap

set_option linter.unusedSectionVars false

namespace MinaRust

open AList Option

abbrev HashSet (V : Type) : Type := HashMap V Unit

variable {K V : Type} [DecidableEq K] [DecidableEq V]

/-- The set stored under `k`; an absent entry is the empty set. -/
def setAt (map : HashMap K (HashSet V)) (k : K) : HashSet V := (map.lookup k).getD ∅

def mapSetInsert (map : HashMap K (HashSet V)) (k : K) (v : V) : HashMap K (HashSet V) :=
  map.insert k ((setAt map k).insert v ())

def mapSetRemove (map : HashMap K (HashSet V)) (k : K) (v : V) : HashMap K (HashSet V) :=
  match map.lookup k with
  | none => map
  | some set =>
    let set := set.erase v
    if set.entries.isEmpty then map.erase k else map.insert k set

variable (map : HashMap K (HashSet V))

@[simp] theorem setAt_insert (k : K) (s : HashSet V) :
    setAt (map.insert k s) k = s := by simp [setAt]

theorem setAt_insert_ne {k k' : K} (h : k' ≠ k) (s : HashSet V) :
    setAt (map.insert k s) k' = setAt map k' := by rw [setAt, lookup_insert_ne h, setAt]

@[simp] theorem setAt_erase (k : K) : setAt (map.erase k) k = ∅ := by
  simp [setAt]

theorem setAt_erase_ne {k k' : K} (h : k' ≠ k) :
    setAt (map.erase k) k' = setAt map k' := by rw [setAt, lookup_erase_ne h, setAt]

theorem mem_setAt_mapSetInsert (k k' : K) (v v' : V) :
    v' ∈ setAt (mapSetInsert map k v) k' ↔ (k' = k ∧ v' = v) ∨ v' ∈ setAt map k' := by
  unfold mapSetInsert
  by_cases e : k' = k
  · subst e
    rw [setAt_insert, mem_insert]
    simp
  · rw [setAt_insert_ne map e]
    simp [e]

theorem isEmpty_iff {s : HashSet V} : s.entries.isEmpty = true ↔ ∀ v, v ∉ s := by
  constructor
  · intro h v mem
    have : v ∈ s.entries.keys := mem
    rw [List.isEmpty_iff.1 h] at this
    cases this
  · intro h
    by_contra ne
    obtain ⟨e, he⟩ := List.exists_mem_of_ne_nil s.entries (fun eq => ne (List.isEmpty_iff.2 eq))
    exact h e.1 (List.mem_map_of_mem (f := Sigma.fst) he)

theorem mem_setAt_mapSetRemove (map : HashMap K (HashSet V)) (k k' : K) (v v' : V) :
    v' ∈ setAt (mapSetRemove map k v) k' ↔ v' ∈ setAt map k' ∧ ¬ (k' = k ∧ v' = v) := by
  unfold mapSetRemove
  cases hl : map.lookup k with
  | none =>
    refine ⟨fun mem => ⟨mem, ?_⟩, And.left⟩
    rintro ⟨rfl, rfl⟩
    rw [setAt, hl] at mem
    exact notMem_empty _ mem
  | some set =>
    have at_k : setAt map k = set := by rw [setAt, hl, getD_some]
    by_cases e : k' = k
    · subst e
      dsimp only
      split
      · next empty =>
        rw [setAt_erase, at_k]
        refine ⟨fun mem => absurd mem (notMem_empty _), fun ⟨mem, ne⟩ => ?_⟩
        exact absurd (mem_erase.2 ⟨fun eq => ne ⟨rfl, eq⟩, mem⟩) (isEmpty_iff.1 empty v')
      · rw [setAt_insert, at_k, mem_erase]
        simp [and_comm]
    · dsimp only
      split
      · rw [setAt_erase_ne map e]
        simp [e]
      · rw [setAt_insert_ne map e]
        simp [e]

/-- **`map` holds exactly the values in `P`, each under its own key.** -/
structure Indexes (map : HashMap K (HashSet V)) (key : V → K) (P : V → Prop) : Prop where
  mem : ∀ k v, v ∈ setAt map k ↔ key v = k ∧ P v
  nonempty : ∀ k set, map.lookup k = some set → ∃ v, v ∈ set

variable {map : HashMap K (HashSet V)} {key : V → K} {P Q : V → Prop}

theorem Indexes.empty (key : V → K) : Indexes (∅ : HashMap K (HashSet V)) key fun _ => False where
  mem k v := by simp [setAt]
  nonempty k set h := by simp at h

theorem Indexes.congr (h : Indexes map key P) (iff : ∀ v, P v ↔ Q v) : Indexes map key Q where
  mem k v := by rw [h.mem, iff]
  nonempty := h.nonempty

theorem Indexes.insert (h : Indexes map key P) (v : V) :
    Indexes (mapSetInsert map (key v) v) key fun w => w = v ∨ P w where
  mem k w := by
    rw [mem_setAt_mapSetInsert, h.mem]
    constructor
    · rintro (⟨rfl, rfl⟩ | ⟨rfl, hw⟩)
      · exact ⟨rfl, .inl rfl⟩
      · exact ⟨rfl, .inr hw⟩
    · rintro ⟨rfl, rfl | hw⟩
      · exact .inl ⟨rfl, rfl⟩
      · exact .inr ⟨rfl, hw⟩
  nonempty k set found := by
    by_cases e : k = key v
    · subst e
      rw [mapSetInsert, lookup_insert, some.injEq] at found
      exact ⟨v, found ▸ (mem_insert _).2 (.inl rfl)⟩
    · rw [mapSetInsert, lookup_insert_ne e] at found
      exact h.nonempty k set found

theorem Indexes.remove (h : Indexes map key P) (v : V) :
    Indexes (mapSetRemove map (key v) v) key fun w => P w ∧ w ≠ v where
  mem k w := by
    rw [mem_setAt_mapSetRemove, h.mem]
    constructor
    · rintro ⟨⟨rfl, hw⟩, ne⟩
      exact ⟨rfl, hw, fun e => ne ⟨e ▸ rfl, e⟩⟩
    · rintro ⟨rfl, hw, ne⟩
      exact ⟨⟨rfl, hw⟩, fun e => ne e.2⟩
  nonempty k set found := by
    unfold mapSetRemove at found
    cases hl : map.lookup (key v) with
    | none =>
      rw [hl] at found
      exact h.nonempty k set found
    | some old =>
      simp only [hl] at found
      by_cases e : k = key v
      · subst e
        split at found
        · rw [lookup_erase] at found
          cases found
        · next ne =>
          rw [lookup_insert, some.injEq] at found
          subst found
          by_contra none
          exact ne (isEmpty_iff.2 fun w hw => none ⟨w, hw⟩)
      · split at found
        · rw [lookup_erase_ne e] at found
          exact h.nonempty k set found
        · rw [lookup_insert_ne e] at found
          exact h.nonempty k set found

end MinaRust
