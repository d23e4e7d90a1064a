/-
  The two maps of a distributed pool.

  `Indexed p`: `by_key` and `list` are inverse to each other, so that a key has one entry.
  The operations keep it (an insertion only of a key that is not there).
-/
import MinaRust.Core.DistributedPool

namespace MinaRust.DistributedPool

open List Option DistributedPool

variable {State Key : Type} [LinearOrder Key]

/-- **`by_key` and `list` are inverse to each other**, and every index has been used. -/
structure Indexed (asRef : State → Key) (p : DistributedPool State Key) : Prop where
  lt : ∀ i s, p.list.get i = some s → i < p.counter
  byKey : ∀ key i, p.byKey.get key = some i ↔ ∃ s, p.list.get i = some s ∧ asRef s = key

variable {asRef : State → Key} {p : DistributedPool State Key}

theorem Indexed.empty : Indexed asRef (empty : DistributedPool State Key) where
  lt _ _ found := by cases found
  byKey key i := by simp [DistributedPool.empty]

variable {key : Key}

theorem Indexed.get_eq_some (h : Indexed asRef p) {s : State} :
    p.get key = some s ↔ ∃ i, p.list.get i = some s ∧ asRef s = key := by
  rw [get, bind_eq_some_iff]
  constructor
  · rintro ⟨i, found, stored⟩
    obtain ⟨s', stored', rfl⟩ := (h.byKey key i).1 found
    rw [stored] at stored'
    cases stored'
    exact ⟨i, stored, rfl⟩
  · rintro ⟨i, stored, rfl⟩
    exact ⟨i, (h.byKey _ i).2 ⟨s, stored, rfl⟩, stored⟩

theorem Indexed.asRef_of_get (h : Indexed asRef p) {s : State} (found : p.get key = some s) :
    asRef s = key := by
  obtain ⟨_, -, eq⟩ := h.get_eq_some.1 found
  exact eq

theorem Indexed.index_lt (h : Indexed asRef p) {i : ℕ} (found : p.byKey.get key = some i) : i < p.counter := by
  obtain ⟨s, stored, -⟩ := (h.byKey key i).1 found
  exact h.lt i s stored

theorem Indexed.key_eq (h : Indexed asRef p) {key' : Key} {i : ℕ} (found : p.byKey.get key = some i)
    (found' : p.byKey.get key' = some i) : key = key' := by
  obtain ⟨s, stored, rfl⟩ := (h.byKey key i).1 found
  obtain ⟨s', stored', rfl⟩ := (h.byKey key' i).1 found'
  rw [stored] at stored'
  cases stored'
  rfl

theorem Indexed.byKey_eq_none (h : Indexed asRef p) (absent : p.get key = none) : p.byKey.get key = none := by
  cases found : p.byKey.get key with
  | none => rfl
  | some i =>
    obtain ⟨s, stored, -⟩ := (h.byKey key i).1 found
    rw [get, found, bind_some, stored] at absent
    cases absent

/-! ## Insertion -/

theorem Indexed.get_insert (h : Indexed asRef p) (s : State) (key : Key) :
    (p.insert asRef s).get key = if key = asRef s then some s else p.get key := by
  unfold get insert
  dsimp only
  rw [OrdMap.get_insert]
  split
  · simp [OrdMap.get_insert]
  · cases found : p.byKey.get key with
    | none => rfl
    | some i =>
      have ne : i ≠ p.counter := (h.index_lt found).ne
      simp [OrdMap.get_insert, ne]

theorem Indexed.insert (h : Indexed asRef p) {s : State} (new : p.get (asRef s) = none)
    (few : p.counter + 1 < 2 ^ 64) : Indexed asRef (p.insert asRef s) := by
  have count : (p.insert asRef s).counter = p.counter + 1 := saturatingSucc_of_lt few
  have list : ∀ i, (p.insert asRef s).list.get i = if i = p.counter then some s else p.list.get i :=
    fun i => OrdMap.get_insert ..
  refine ⟨fun i s' stored => ?_, fun key i => ?_⟩
  · rw [list] at stored
    rw [count]
    split at stored
    · omega
    · exact (h.lt i s' stored).trans (Nat.lt_succ_self _)
  · have byKey : (p.insert asRef s).byKey.get key = _ := OrdMap.get_insert ..
    rw [byKey, list]
    by_cases here : i = p.counter
    · -- the new index belongs to the new entry only
      subst here
      rw [if_pos rfl]
      constructor
      · intro found
        split at found
        · next eq => exact ⟨s, rfl, eq.symm⟩
        · exact absurd (h.index_lt found) (lt_irrefl _)
      · rintro ⟨s', eq, rfl⟩
        cases eq
        rw [if_pos rfl]
    · rw [if_neg here, ← h.byKey]
      split
      · next eq =>
        rw [eq, h.byKey_eq_none new]
        exact ⟨fun found => absurd (Option.some.inj found).symm here, fun found => nomatch found⟩
      · rfl

/-! ## Removal -/

theorem remove_fst (key : Key) : (p.remove key).1 = p.get key := by
  unfold DistributedPool.remove get
  cases p.byKey.get key <;> rfl

theorem Indexed.get_remove (h : Indexed asRef p) (key key' : Key) :
    (p.remove key).2.get key' = if key' = key then none else p.get key' := by
  unfold DistributedPool.remove
  cases found : p.byKey.get key with
  | none =>
    dsimp only
    split
    · next eq => rw [eq, get, found]; rfl
    · rfl
  | some i =>
    dsimp only [get]
    rw [OrdMap.get_remove]
    split
    · rfl
    · next ne =>
      cases found' : p.byKey.get key' with
      | none => rfl
      | some j =>
        -- another key has another index
        have other : j ≠ i := fun eq => ne (h.key_eq found' (eq ▸ found))
        simp [OrdMap.get_remove, other]

theorem Indexed.remove (h : Indexed asRef p) (key : Key) : Indexed asRef (p.remove key).2 := by
  unfold DistributedPool.remove
  cases found : p.byKey.get key with
  | none => exact h
  | some i =>
    obtain ⟨s, stored, rfl⟩ := (h.byKey key i).1 found
    refine ⟨fun j s' stored' => ?_, fun key' j => ?_⟩
    · rw [OrdMap.get_remove] at stored'
      split at stored'
      · cases stored'
      · exact h.lt j s' stored'
    · dsimp only
      rw [OrdMap.get_remove, OrdMap.get_remove]
      by_cases here : j = i
      · subst here
        rw [if_pos rfl]
        constructor
        · intro found'
          split at found'
          · cases found'
          · next ne =>
            obtain ⟨s', stored', eq⟩ := (h.byKey key' j).1 found'
            rw [stored] at stored'
            cases stored'
            exact absurd eq.symm ne
        · rintro ⟨s', none, -⟩
          cases none
      · rw [if_neg here, ← h.byKey]
        split
        · next eq =>
          rw [eq, found]
          simp [Ne.symm here]
        · rfl

/-! ## Loops of insertions and removals -/

theorem Indexed.foldl_remove : ∀ (keys : List Key) {p : DistributedPool State Key}, Indexed asRef p →
    Indexed asRef (keys.foldl (fun p key => (p.remove key).2) p) ∧
      (keys.foldl (fun p key => (p.remove key).2) p).counter = p.counter ∧
      ∀ key, (keys.foldl (fun p key => (p.remove key).2) p).get key = if key ∈ keys then none else p.get key
  | [], p, h => ⟨h, rfl, fun key => by simp⟩
  | key₀ :: keys, p, h => by
    obtain ⟨indexed, count, get⟩ := Indexed.foldl_remove keys (h.remove key₀)
    refine ⟨indexed, count.trans (remove_counter key₀), fun key => (get key).trans ?_⟩
    rw [h.get_remove]
    by_cases here : key = key₀
    · simp [here]
    · simp [here]

theorem counter_le_foldl_insert (asRef : State → Key) : ∀ (states : List State) (p : DistributedPool State Key),
    p.counter < 2 ^ 64 → p.counter ≤ (states.foldl (fun p s => p.insert asRef s) p).counter
  | [], _, _ => le_rfl
  | s :: states, p, small => by
    have next : (p.insert asRef s).counter = min (p.counter + 1) (2 ^ 64 - 1) := rfl
    have later := counter_le_foldl_insert asRef states (p.insert asRef s) (by omega)
    rw [foldl_cons]
    omega

theorem Indexed.foldl_insert : ∀ (states : List State) {p : DistributedPool State Key}, Indexed asRef p →
    (states.map asRef).Nodup → (∀ s ∈ states, p.get (asRef s) = none) → p.counter < 2 ^ 64 →
    (states.foldl (fun p s => p.insert asRef s) p).counter < 2 ^ 64 - 1 →
    Indexed asRef (states.foldl (fun p s => p.insert asRef s) p) ∧
      ∀ key s, (states.foldl (fun p s => p.insert asRef s) p).get key = some s →
        p.get key = some s ∨ s ∈ states ∧ asRef s = key
  | [], p, h, _, _, _, _ => ⟨h, fun key s found => .inl found⟩
  | s₀ :: states, p, h, nodup, new, small, few => by
    rw [map_cons, nodup_cons] at nodup
    rw [forall_mem_cons] at new
    rw [foldl_cons] at few
    have next : (p.insert asRef s₀).counter = min (p.counter + 1) (2 ^ 64 - 1) := rfl
    have grows := counter_le_foldl_insert asRef states (p.insert asRef s₀) (by omega)
    have indexed := h.insert new.1 (by omega)
    have new' : ∀ s ∈ states, (p.insert asRef s₀).get (asRef s) = none := by
      intro s mem
      have ne : asRef s ≠ asRef s₀ := fun eq => nodup.1 (mem_map.2 ⟨s, mem, eq⟩)
      rw [h.get_insert, if_neg ne]
      exact new.2 s mem
    obtain ⟨indexed', found⟩ := Indexed.foldl_insert states indexed nodup.2 new' (by omega) few
    refine ⟨indexed', fun key s there => ?_⟩
    rcases found key s there with before | ⟨mem, eq⟩
    · rw [h.get_insert] at before
      split at before
      · next eq =>
        cases before
        exact .inr ⟨mem_cons_self, eq.symm⟩
      · exact .inl before
    · exact .inr ⟨mem_cons_of_mem _ mem, eq⟩

/-! ## Update -/

section
variable {R : Type} {f : State → R × State}

theorem Indexed.update (h : Indexed asRef p) {key : Key} {s : State} (found : p.get key = some s)
    (keeps : asRef (f s).2 = key) (few : p.counter + 1 < 2 ^ 64) :
    Indexed asRef (p.update asRef key f).2 ∧ (p.update asRef key f).1 = some (f s).1 ∧
      ∀ key', (p.update asRef key f).2.get key' = if key' = key then some (f s).2 else p.get key' := by
  have fst : (p.remove key).1 = p.get key := remove_fst key
  have get := h.get_remove key
  have indexed := h.remove key
  have count : (p.remove key).2.counter = p.counter := remove_counter key
  unfold DistributedPool.update
  generalize p.remove key = r at fst get indexed count
  obtain ⟨removed, p'⟩ := r
  rw [found] at fst
  dsimp only at fst get indexed count
  subst fst
  dsimp only
  refine ⟨indexed.insert ?_ (by omega), rfl, fun key' => ?_⟩
  · rw [keeps, get, if_pos rfl]
  · rw [indexed.get_insert, keeps, get]
    split <;> rfl

theorem Indexed.update_none (h : Indexed asRef p) (absent : p.get key = none) :
    p.update asRef key f = (none, p) := by
  have noKey := h.byKey_eq_none absent
  simp [DistributedPool.update, DistributedPool.remove, noKey]

end

/-! ## `retain_and_update` -/

section
variable {σ : Type} {f : σ → Key → State → σ × State × Bool}

theorem retainStep_of_stays {c : σ} {i : ℕ} {s : State} (stored : p.list.get i = some s)
    (stays : (f c key s).2.2 = true) :
    DistributedPool.retainStep f (c, p) (key, i) =
      ((f c key s).1, { p with list := p.list.modify i fun _ => (f c key s).2.1 }) := by
  simp [retainStep, stored, if_pos stays]

theorem retainStep_of_not_stays {c : σ} {i : ℕ} {s : State} (found : p.byKey.get key = some i)
    (stored : p.list.get i = some s) (goes : ¬ (f c key s).2.2 = true) :
    DistributedPool.retainStep f (c, p) (key, i) = ((f c key s).1, (p.remove key).2) := by
  simp [retainStep, stored, if_neg goes, DistributedPool.remove, found]

theorem Indexed.modify (h : Indexed asRef p) {key : Key} {i : ℕ} (found : p.byKey.get key = some i)
    {s : State} (keeps : asRef s = key) :
    Indexed asRef { p with list := p.list.modify i fun _ => s } ∧
      ∀ key', get { p with list := p.list.modify i fun _ => s } key' =
        if key' = key then some s else p.get key' := by
  obtain ⟨s₀, stored, eq₀⟩ := (h.byKey key i).1 found
  have list : ∀ j, (p.list.modify i fun _ => s).get j = if j = i then some s else p.list.get j := by
    intro j
    rw [OrdMap.get_modify]
    split
    · next eq => rw [eq, stored]; rfl
    · rfl
  refine ⟨⟨fun j s' stored' => ?_, fun key' j => ?_⟩, fun key' => ?_⟩
  · rw [list] at stored'
    split at stored'
    · next eq => exact eq ▸ h.lt i s₀ stored
    · exact h.lt j s' stored'
  · dsimp only
    rw [list, h.byKey]
    split
    · next eq =>
      rw [eq, stored]
      simp [eq₀, keeps]
    · rfl
  · unfold get
    dsimp only
    split
    · next eq => rw [eq, found, bind_some, list, if_pos rfl]
    · next ne =>
      cases found' : p.byKey.get key' with
      | none => rfl
      | some j =>
        have other : j ≠ i := fun eq => ne (h.key_eq found' (eq ▸ found))
        rw [bind_some, bind_some, list, if_neg other]

theorem Indexed.retainStep (h : Indexed asRef p) {c : σ} {key : Key} {i : ℕ} {s : State}
    (found : p.byKey.get key = some i) (stored : p.list.get i = some s) (keeps : asRef (f c key s).2.1 = key) :
    (retainStep f (c, p) (key, i)).1 = (f c key s).1 ∧ Indexed asRef (retainStep f (c, p) (key, i)).2 ∧
      (∀ key', key' ≠ key → (retainStep f (c, p) (key, i)).2.byKey.get key' = p.byKey.get key') ∧
      ∀ key', (retainStep f (c, p) (key, i)).2.get key' =
        if key' = key then (if (f c key s).2.2 then some (f c key s).2.1 else none) else p.get key' := by
  by_cases stays : (f c key s).2.2 = true
  · rw [retainStep_of_stays stored stays, if_pos stays]
    obtain ⟨indexed, get⟩ := h.modify found keeps
    exact ⟨rfl, indexed, fun _ _ => rfl, get⟩
  · rw [retainStep_of_not_stays found stored stays, if_neg stays]
    refine ⟨rfl, h.remove key, fun key' ne => ?_, h.get_remove key⟩
    simp only [DistributedPool.remove, found]
    exact (OrdMap.get_remove ..).trans (if_neg ne)

/-- **The loop of `retain_and_update`**, for a closure that leaves the keys alone and decides
    about each without the calls before. -/
theorem Indexed.retainLoop (keeps : ∀ c key s, asRef s = key → asRef (f c key s).2.1 = key)
    (independent : ∀ c key s key' s', key' ≠ key → (f (f c key s).1 key' s').2 = (f c key' s').2) :
    ∀ (es : List (Key × ℕ)) (c : σ) (p : DistributedPool State Key), Indexed asRef p →
      (es.map Prod.fst).Nodup → (∀ e ∈ es, p.byKey.get e.1 = some e.2) →
      Indexed asRef (es.foldl (DistributedPool.retainStep f) (c, p)).2 ∧
      ∀ key, (es.foldl (DistributedPool.retainStep f) (c, p)).2.get key =
        if key ∈ es.map Prod.fst then
          (p.get key).bind fun s => if (f c key s).2.2 then some (f c key s).2.1 else none
        else p.get key
  | [], c, p, h, _, _ => ⟨h, fun key => by simp⟩
  | (key₀, i) :: es, c, p, h, nodup, found => by
    rw [map_cons, nodup_cons] at nodup
    rw [forall_mem_cons] at found
    obtain ⟨s, stored, eq⟩ := (h.byKey key₀ i).1 found.1
    obtain ⟨fst, indexed, others, after⟩ := h.retainStep found.1 stored (keeps c key₀ s eq)
    have rest : ∀ e ∈ es, (DistributedPool.retainStep f (c, p) (key₀, i)).2.byKey.get e.1 = some e.2 := by
      intro e mem
      have ne : e.1 ≠ key₀ := fun eq => nodup.1 (mem_map.2 ⟨e, mem, eq⟩)
      rw [others e.1 ne]
      exact found.2 e mem
    have later := Indexed.retainLoop keeps independent es
      (DistributedPool.retainStep f (c, p) (key₀, i)).1 _ indexed nodup.2 rest
    refine ⟨later.1, fun key => (later.2 key).trans ?_⟩
    have here : p.get key₀ = some s := h.get_eq_some.2 ⟨i, stored, eq⟩
    rw [map_cons]
    by_cases first : key = key₀
    · subst first
      rw [if_neg nodup.1, if_pos mem_cons_self, after, if_pos rfl, here, bind_some]
    · rw [after, if_neg first, fst]
      simp only [mem_cons, first, false_or, independent c key₀ s key _ first]

theorem Indexed.retainAndUpdate (h : Indexed asRef p) (c : σ)
    (keeps : ∀ c key s, asRef s = key → asRef (f c key s).2.1 = key)
    (independent : ∀ c key s key' s', key' ≠ key → (f (f c key s).1 key' s').2 = (f c key' s').2) :
    Indexed asRef (retainAndUpdate f c p).2 ∧ ∀ key, (retainAndUpdate f c p).2.get key =
        (p.get key).bind fun s => if (f c key s).2.2 then some (f c key s).2.1 else none := by
  have nodup : (p.byKey.entries.map Prod.fst).Nodup :=
    pairwise_map.2 (p.byKey.sorted.imp ne_of_lt)
  have loop := Indexed.retainLoop keeps independent p.byKey.entries c p h nodup
    fun e mem => OrdMap.get_eq_some.2 mem
  refine ⟨loop.1, fun key => (loop.2 key).trans ?_⟩
  split
  · rfl
  · next absent =>
    have none : p.byKey.get key = none := OrdMap.get_eq_none.2 fun i mem =>
      absent (mem_map_of_mem mem)
    rw [get, none]
    rfl

end

end MinaRust.DistributedPool
