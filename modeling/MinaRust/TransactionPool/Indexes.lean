/-
  The indexes of the pool: what they hold, and how the deferred updates change it.

  The queues of the senders are not touched by updates; `Tracks` says that a list of updates
  takes the indexes from one queue of a sender to another.
-/
import Mathlib.Data.Finset.Card
import Mathlib.Data.Finset.Dedup
import MinaRust.TransactionPool.IndexedPool
import MinaRust.TransactionPool.Queue

set_option linter.unusedSectionVars false

namespace MinaRust.TransactionPool

open List AList IndexedPool

variable {Cmd A Hash R : Type} [PoolCommand Cmd A Hash R]
  [DecidableEq Cmd] [DecidableEq A] [LinearOrder Hash] [LinearOrder R]

namespace IndexedPool

/-! ## Single updates -/

/-- **The indexes hold the commands `C`, and the applicable ones are `H`.** -/
structure Indexed (p : IndexedPool Cmd A Hash R) (C H : Finset Cmd) : Prop where
  byFee : Indexes p.allByFee feePerWu (· ∈ C)
  byHash : ∀ h c, p.allByHash.lookup h = some c ↔ hash c = h ∧ c ∈ C
  applicable : Indexes p.applicableByFee feePerWu (· ∈ H)
  expiration : Indexes p.transactionsWithExpiration validUntil fun c => c ∈ C ∧ validUntil c ≠ slotMax
  size : p.size = C.card

variable {p p' : IndexedPool Cmd A Hash R} {C H : Finset Cmd} {c : Cmd}

theorem Indexed.new : Indexed (new : IndexedPool Cmd A Hash R) ∅ ∅ where
  byFee := (Indexes.empty _).congr (by simp)
  byHash h c := by simp [IndexedPool.new]
  applicable := (Indexes.empty _).congr (by simp)
  expiration := (Indexes.empty _).congr (by simp)
  size := rfl

theorem Indexed.of_iff {C' H' : Finset Cmd} (i : Indexed p C H) (hC : ∀ c, c ∈ C ↔ c ∈ C')
    (hH : ∀ c, c ∈ H ↔ c ∈ H') : Indexed p C' H' :=
  Finset.ext hC ▸ Finset.ext hH ▸ i

theorem Indexed.withQueues (i : Indexed p C H) (queues : HashMap A (List Cmd × ℕ)) :
    Indexed { p with allBySender := queues } C H :=
  ⟨i.byFee, i.byHash, i.applicable, i.expiration, i.size⟩

theorem Indexed.member_iff (i : Indexed p C H) : p.member c ↔ c ∈ C := by
  unfold member
  rw [← lookup_isSome, Option.isSome_iff_exists]
  constructor
  · rintro ⟨d, found⟩
    obtain ⟨same, mem⟩ := (i.byHash _ _).1 found
    exact PoolCommand.hash_injective same ▸ mem
  · exact fun mem => ⟨c, (i.byHash _ _).2 ⟨rfl, mem⟩⟩

theorem Indexed.insertApplicable (i : Indexed p C H) (c : Cmd) :
    Indexed (p.insertApplicable c) C (insert c H) where
  byFee := i.byFee
  byHash := i.byHash
  applicable := (i.applicable.insert c).congr (by simp)
  expiration := i.expiration
  size := i.size

theorem Indexed.removeApplicable (i : Indexed p C H) (c : Cmd) :
    Indexed (p.removeApplicableExn c) C (H.erase c) where
  byFee := i.byFee
  byHash := i.byHash
  applicable := (i.applicable.remove c).congr (by simp [and_comm])
  expiration := i.expiration
  size := i.size

theorem lookup_insert_hash (m : HashMap Hash Cmd) (c : Cmd)
    (byHash : ∀ h d, m.lookup h = some d ↔ hash d = h ∧ d ∈ C) (h : Hash) (d : Cmd) :
    (m.insert (hash c) c).lookup h = some d ↔ hash d = h ∧ d ∈ insert c C := by
  by_cases e : h = hash c
  · subst e
    rw [lookup_insert, Option.some.injEq, Finset.mem_insert]
    constructor
    · rintro rfl
      exact ⟨rfl, .inl rfl⟩
    · exact fun h => (PoolCommand.hash_injective h.1).symm
  · rw [lookup_insert_ne e, byHash, Finset.mem_insert]
    refine and_congr_right fun eq => ⟨.inr, fun mem => mem.resolve_left ?_⟩
    rintro rfl
    exact e eq.symm

theorem lookup_erase_hash (m : HashMap Hash Cmd) (c : Cmd)
    (byHash : ∀ h d, m.lookup h = some d ↔ hash d = h ∧ d ∈ C) (h : Hash) (d : Cmd) :
    (m.erase (hash c)).lookup h = some d ↔ hash d = h ∧ d ∈ C.erase c := by
  by_cases e : h = hash c
  · subst e
    rw [lookup_erase, Finset.mem_erase]
    simp only [reduceCtorEq, false_iff]
    rintro ⟨eq, ne, -⟩
    exact ne (PoolCommand.hash_injective eq)
  · rw [lookup_erase_ne e, byHash, Finset.mem_erase]
    refine and_congr_right fun eq => ⟨fun mem => ⟨?_, mem⟩, And.right⟩
    rintro rfl
    exact e eq.symm

@[simp] theorem insertCommand_allBySender (p : IndexedPool Cmd A Hash R) (c : Cmd) :
    (p.insertCommand c).allBySender = p.allBySender := by
  unfold insertCommand addToExpiration
  split <;> rfl

@[simp] theorem insertCommand_slotTxEnd (p : IndexedPool Cmd A Hash R) (c : Cmd) :
    (p.insertCommand c).slotTxEnd = p.slotTxEnd := by
  unfold insertCommand addToExpiration
  split <;> rfl

@[simp] theorem insertCommand_size (p : IndexedPool Cmd A Hash R) (c : Cmd) :
    (p.insertCommand c).size = p.size + 1 := by
  unfold insertCommand addToExpiration
  split <;> rfl

theorem Indexed.insertCommand (i : Indexed p C H) (fresh : c ∉ C) :
    Indexed (p.insertCommand c) (insert c C) H := by
  have size : p.size + 1 = (insert c C).card := by rw [Finset.card_insert_of_notMem fresh, i.size]
  have byFee : Indexes (mapSetInsert p.allByFee (feePerWu c) c) feePerWu (· ∈ insert c C) :=
    (i.byFee.insert c).congr (by simp)
  have byHash := lookup_insert_hash p.allByHash c i.byHash
  unfold IndexedPool.insertCommand addToExpiration
  split
  · next last =>
    refine ⟨byFee, byHash, i.applicable, i.expiration.congr fun d => ?_, size⟩
    rw [Finset.mem_insert]
    refine and_congr_left fun ne => ⟨.inr, fun mem => mem.resolve_left ?_⟩
    rintro rfl
    exact ne last
  · next before =>
    refine ⟨byFee, byHash, i.applicable, (i.expiration.insert c).congr fun d => ?_, size⟩
    rw [Finset.mem_insert]
    constructor
    · rintro (rfl | ⟨mem, ne⟩)
      · exact ⟨.inl rfl, before⟩
      · exact ⟨.inr mem, ne⟩
    · rintro ⟨rfl | mem, ne⟩
      · exact .inl rfl
      · exact .inr ⟨mem, ne⟩

def SameQueues (p p' : IndexedPool Cmd A Hash R) : Prop :=
  p'.allBySender = p.allBySender ∧ p'.slotTxEnd = p.slotTxEnd

theorem removeCommand_sameQueues (h : p.removeCommand c = .ok p') : SameQueues p p' := by
  obtain ⟨size, -, rest⟩ := bind_eq_ok.1 h
  cases rest
  unfold removeFromExpirationExn
  split <;> exact ⟨rfl, rfl⟩

theorem Indexed.removeCommand (i : Indexed p C H) (mem : c ∈ C) :
    ∃ p', p.removeCommand c = .ok p' ∧ Indexed p' (C.erase c) H := by
  have pos : 1 ≤ p.size := by
    rw [i.size]
    exact Finset.card_pos.2 ⟨c, mem⟩
  have size : p.size - 1 = (C.erase c).card := by rw [Finset.card_erase_of_mem mem, i.size]
  have byFee : Indexes (mapSetRemove p.allByFee (feePerWu c) c) feePerWu (· ∈ C.erase c) :=
    (i.byFee.remove c).congr (by simp [and_comm])
  have byHash := lookup_erase_hash p.allByHash c i.byHash
  unfold IndexedPool.removeCommand removeFromExpirationExn
  by_cases last : validUntil c = slotMax
  · simp only [last, if_true, checkedSub_of_le pos, ok_bind]
    refine ⟨_, rfl, byFee, byHash, i.applicable, i.expiration.congr fun d => ?_, size⟩
    rw [Finset.mem_erase]
    refine and_congr_left fun ne => ⟨fun mem => ⟨?_, mem⟩, And.right⟩
    rintro rfl
    exact ne last
  · simp only [last, if_false, checkedSub_of_le pos, ok_bind]
    refine ⟨_, rfl, byFee, byHash, i.applicable, (i.expiration.remove c).congr fun d => ?_, size⟩
    rw [Finset.mem_erase]
    tauto

theorem Indexed.removeCommands : ∀ {cs : List Cmd} {p : IndexedPool Cmd A Hash R}
    {C : Finset Cmd}, Indexed p C H → cs.Nodup → (∀ c ∈ cs, c ∈ C) →
      ∃ p', p.updateRemoveAllByFeeAndHashAndExpiration cs = .ok p' ∧
        Indexed p' (C \ cs.toFinset) H ∧ SameQueues p p'
  | [], p, C, i, _, _ => ⟨p, rfl, by simpa using i, rfl, rfl⟩
  | c :: cs, p, C, i, nodup, mem => by
    rw [nodup_cons] at nodup
    rw [forall_mem_cons] at mem
    obtain ⟨p₁, first, i₁⟩ := i.removeCommand mem.1
    have rest : ∀ d ∈ cs, d ∈ C.erase c := fun d hd =>
      Finset.mem_erase.2 ⟨fun e => nodup.1 (e ▸ hd), mem.2 d hd⟩
    obtain ⟨p', run, i', same⟩ := Indexed.removeCommands i₁ nodup.2 rest
    have same₁ := removeCommand_sameQueues first
    refine ⟨p', ?_, ?_, same.1.trans same₁.1, same.2.trans same₁.2⟩
    · rw [updateRemoveAllByFeeAndHashAndExpiration, foldlM_cons, first, ok_bind]
      exact run
    · refine i'.of_iff (fun d => ?_) fun d => Iff.rfl
      simp only [Finset.mem_sdiff, Finset.mem_erase, mem_toFinset, mem_cons]
      tauto

/-! ## Lists of updates for one sender -/

theorem applyUpdates_append (p : IndexedPool Cmd A Hash R) (us us' : List (Update Cmd)) :
    p.applyUpdates (us ++ us') = p.applyUpdates us >>= fun p => p.applyUpdates us' :=
  foldlM_append ..

/-- **The updates take the indexes from the queue `q` of the sender `s` to the queue
    `q'`**, whatever commands other senders have. -/
def Tracks (s : A) (q q' : List Cmd) (updates : List (Update Cmd)) : Prop :=
  ∀ (p : IndexedPool Cmd A Hash R) (C H : Finset Cmd), (∀ c ∈ C, feePayer c ≠ s) →
    (∀ c ∈ H, feePayer c ≠ s) → Indexed p (C ∪ q.toFinset) (H ∪ (q.take 1).toFinset) →
    ∃ p', p.applyUpdates updates = .ok p' ∧
      Indexed p' (C ∪ q'.toFinset) (H ∪ (q'.take 1).toFinset) ∧ SameQueues p p'

variable {s : A} {q q' q'' : List Cmd} {us us' : List (Update Cmd)}

theorem Tracks.refl (s : A) (q : List Cmd) : Tracks s q q [] :=
  fun p _ _ _ _ i => ⟨p, rfl, i, rfl, rfl⟩

theorem Tracks.trans (t : Tracks s q q' us) (t' : Tracks s q' q'' us') : Tracks s q q'' (us ++ us') := by
  intro p C H hC hH i
  obtain ⟨p₁, run₁, i₁, same₁⟩ := t p C H hC hH i
  obtain ⟨p₂, run₂, i₂, same₂⟩ := t' p₁ C H hC hH i₁
  refine ⟨p₂, ?_, i₂, same₂.1.trans same₁.1, same₂.2.trans same₁.2⟩
  rw [applyUpdates_append, run₁, ok_bind, run₂]

theorem Tracks.first (sender : feePayer c = s) : Tracks s [] [c] [.add c true] := by
  intro p C H hC hH i
  have fresh : c ∉ C := fun mem => hC c mem sender
  simp only [toFinset_nil, Finset.union_empty, take_nil] at i
  have i' := (i.insertApplicable c).insertCommand fresh
  refine ⟨(p.insertApplicable c).insertCommand c, rfl, i'.of_iff ?_ ?_, ?_, ?_⟩
  · simp
  · simp
  · simp [insertApplicable]
  · simp [insertApplicable]

theorem Tracks.snoc (sender : feePayer c = s) (nonempty : q ≠ []) (fresh : c ∉ q) :
    Tracks s q (q ++ [c]) [.add c false] := by
  intro p C H hC hH i
  have new : c ∉ C ∪ q.toFinset := by
    rw [Finset.mem_union, mem_toFinset, not_or]
    exact ⟨fun mem => hC c mem sender, fresh⟩
  have head : (q ++ [c]).take 1 = q.take 1 := by
    cases q with
    | nil => exact absurd rfl nonempty
    | cons d q => rfl
  refine ⟨p.insertCommand c, rfl, (i.insertCommand new).of_iff (fun d => ?_) fun d => ?_, by simp, by simp⟩
  · simp only [Finset.mem_insert, Finset.mem_union, mem_toFinset, mem_append, mem_singleton]
    tauto
  · rw [head]

theorem Tracks.drop {r : ℕ} (ok : QueueOk s q r) {i : ℕ} (hi : i < q.length) :
    Tracks s q (q.take i) ([.removeAllByFeeAndHashAndExpiration (q.drop i)] ++
      if i = 0 then [.removeFromApplicableByFee (q.get ⟨i, hi⟩)] else []) := by
  intro p C H hC hH ix
  have nodup := ok.nodup
  have parts : ∀ c, c ∈ q ↔ c ∈ q.take i ∨ c ∈ q.drop i := fun c => by
    rw [← mem_append, take_append_drop]
  have apart : ∀ c, c ∈ q.take i → c ∉ q.drop i := fun c =>
    disjoint_take_drop nodup (le_refl i) (a := c)
  obtain ⟨p₁, run₁, i₁, same₁⟩ := ix.removeCommands (nodup.sublist (drop_sublist i q))
    (fun c hc => Finset.mem_union_right _ (mem_toFinset.2 ((parts c).2 (.inr hc))))
  have kept : (C ∪ q.toFinset) \ (q.drop i).toFinset = C ∪ (q.take i).toFinset := by
    ext c
    simp only [Finset.mem_sdiff, Finset.mem_union, mem_toFinset, parts]
    constructor
    · rintro ⟨mem | mem | mem, out⟩
      · exact .inl mem
      · exact .inr mem
      · exact absurd mem out
    · rintro (mem | mem)
      · exact ⟨.inl mem, fun h => hC c mem (ok.sender c ((parts c).2 (.inr h)))⟩
      · exact ⟨.inr (.inl mem), apart c mem⟩
  rw [kept] at i₁
  by_cases zero : i = 0
  · subst zero
    have head : (q.take 1).toFinset = {q.get ⟨0, hi⟩} := by
      cases q with
      | nil => simp at hi
      | cons d q => simp
    refine ⟨p₁.removeApplicableExn (q.get ⟨0, hi⟩), ?_, ?_, same₁.1, same₁.2⟩
    · rw [if_pos rfl, applyUpdates_append, applyUpdates, foldlM_cons, applyUpdate, run₁]
      rfl
    · refine (i₁.removeApplicable (q.get ⟨0, hi⟩)).of_iff (fun c => Iff.rfl) fun c => ?_
      rw [head]
      simp only [take_zero, toFinset_nil, Finset.mem_union, Finset.mem_erase,
        Finset.mem_singleton, take_nil, Finset.notMem_empty, or_false]
      constructor
      · rintro ⟨ne, mem | mem⟩
        · exact mem
        · exact absurd mem ne
      · exact fun mem => ⟨fun e => hH c mem (e ▸ ok.sender _ (get_mem q _)), .inl mem⟩
  · refine ⟨p₁, ?_, ?_, same₁⟩
    · rw [if_neg zero, append_nil, applyUpdates, foldlM_cons, applyUpdate, run₁]
      rfl
    · rwa [take_take, Nat.min_eq_left (by omega)]

end IndexedPool
end MinaRust.TransactionPool
