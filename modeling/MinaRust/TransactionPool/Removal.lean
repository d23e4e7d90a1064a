/-
  The invariant of the pool, and the operations that only remove commands:
  `remove_with_dependents_exn`, `remove_expired`, `remove_lowest_fee`.
-/
import MinaRust.TransactionPool.Indexes

set_option linter.unusedSectionVars false

namespace MinaRust.TransactionPool

open List Finset

variable {Cmd A Hash R : Type} [PoolCommand Cmd A Hash R]
  [DecidableEq Cmd] [DecidableEq A] [LinearOrder Hash] [LinearOrder R]

def stateQueue (st : Option (List Cmd × ℕ)) : List Cmd := (st.map Prod.fst).getD []

@[simp] theorem stateQueue_some (q : List Cmd) (r : ℕ) : stateQueue (some (q, r)) = q := rfl

@[simp] theorem stateQueue_none : stateQueue (none : Option (List Cmd × ℕ)) = [] := rfl

def StateOk (s : A) (st : Option (List Cmd × ℕ)) : Prop :=
  ∀ q r, st = some (q, r) → QueueOk s q r

theorem StateOk.sender {s : A} {st : Option (List Cmd × ℕ)} (ok : StateOk s st) :
    ∀ c ∈ stateQueue st, feePayer c = s := by
  match st, ok with
  | none, _ => simp
  | some (q, r), ok => exact (ok q r rfl).sender

theorem StateOk.chain {s : A} {st : Option (List Cmd × ℕ)} (ok : StateOk s st) :
    (stateQueue st).IsChain Follows ∧ (stateQueue st).length ≤ 2 ^ 32 := by
  match st, ok with
  | none, _ => exact ⟨.nil, Nat.zero_le _⟩
  | some (q, r), ok => exact ⟨(ok q r rfl).chain, (ok q r rfl).short⟩

theorem StateOk.none (s : A) : StateOk s (none : Option (List Cmd × ℕ)) :=
  fun _ _ h => nomatch h

theorem StateOk.some {s : A} {q : List Cmd} {r : ℕ} (ok : QueueOk s q r) : StateOk s (some (q, r)) := by
  rintro q r ⟨⟩
  exact ok

namespace IndexedPool

variable {p p' : IndexedPool Cmd A Hash R} {C H : Finset Cmd} {c : Cmd} {s : A}

def queueOf (p : IndexedPool Cmd A Hash R) (s : A) : List Cmd :=
  stateQueue (p.allBySender.lookup s)

/-- **The invariant of the pool**, with the commands `C` and the heads `H`. -/
structure Holds (p : IndexedPool Cmd A Hash R) (C H : Finset Cmd) : Prop where
  indexed : Indexed p C H
  queues : ∀ s, StateOk s (p.allBySender.lookup s)
  commands : ∀ c, c ∈ C ↔ c ∈ p.queueOf (feePayer c)
  heads : ∀ c, c ∈ H ↔ c ∈ (p.queueOf (feePayer c)).take 1

theorem Holds.new : Holds (new : IndexedPool Cmd A Hash R) ∅ ∅ where
  indexed := .new
  queues s := .none s
  commands c := by simp [queueOf, IndexedPool.new]
  heads c := by simp [queueOf, IndexedPool.new]

def Valid (p : IndexedPool Cmd A Hash R) : Prop := ∃ C H, Holds p C H

theorem Holds.queue_length_le (h : Holds p C H) (s : A) : (p.queueOf s).length ≤ p.size := by
  cases state : p.allBySender.lookup s with
  | none => simp [queueOf, state]
  | some e =>
    obtain ⟨q, r⟩ := e
    have ok := h.queues s q r state
    have queue : p.queueOf s = q := by rw [queueOf, state, stateQueue_some]
    rw [queue, h.indexed.size, ← toFinset_card_of_nodup ok.nodup]
    refine card_le_card fun c mem => ?_
    rw [mem_toFinset] at mem
    rw [h.commands, ok.sender c mem, queue]
    exact mem

def others (s : A) (C : Finset Cmd) : Finset Cmd := C.filter fun c => feePayer c ≠ s

theorem mem_others : c ∈ others s C ↔ c ∈ C ∧ feePayer c ≠ s := mem_filter

theorem Holds.split (h : Holds p C H) (s : A) :
    Indexed p (others s C ∪ (p.queueOf s).toFinset) (others s H ∪ ((p.queueOf s).take 1).toFinset) := by
  have sender : ∀ c ∈ p.queueOf s, feePayer c = s := (h.queues s).sender
  refine h.indexed.of_iff (fun c => ?_) fun c => ?_
  · rw [mem_union, mem_others, mem_toFinset, h.commands c]
    by_cases e : feePayer c = s
    · simp [e]
    · simp only [e, ne_eq, not_false_eq_true, and_true, iff_self_or]
      exact fun mem => absurd (sender c mem) e
  · rw [mem_union, mem_others, mem_toFinset, h.heads c]
    by_cases e : feePayer c = s
    · simp [e]
    · simp only [e, ne_eq, not_false_eq_true, and_true, iff_self_or]
      exact fun mem => absurd (sender c (mem_of_mem_take mem)) e

variable {st : Option (List Cmd × ℕ)}

/-- **A change of one queue**: if the indexes hold the commands of the other senders and
    those of the new queue, the invariant holds again. -/
theorem Holds.rebuild (h : Holds p C H) (ok : StateOk s st) (at_s : p'.allBySender.lookup s = st)
    (elsewhere : ∀ s', s' ≠ s → p'.allBySender.lookup s' = p.allBySender.lookup s')
    (indexed : Indexed p' (others s C ∪ (stateQueue st).toFinset) (others s H ∪ ((stateQueue st).take 1).toFinset)) :
    Holds p' (others s C ∪ (stateQueue st).toFinset) (others s H ∪ ((stateQueue st).take 1).toFinset) := by
  have queue : p'.queueOf s = stateQueue st := by rw [queueOf, at_s]
  have other : ∀ s', s' ≠ s → p'.queueOf s' = p.queueOf s' := fun s' ne => by
    rw [queueOf, elsewhere s' ne, queueOf]
  refine ⟨indexed, fun s' => ?_, fun c => ?_, fun c => ?_⟩
  · by_cases e : s' = s
    · rw [e, at_s]
      exact ok
    · rw [elsewhere s' e]
      exact h.queues s'
  · rw [mem_union, mem_others, mem_toFinset]
    by_cases e : feePayer c = s
    · simp [e, queue]
    · rw [other _ e, ← h.commands c]
      simp only [e, ne_eq, not_false_eq_true, and_true, or_iff_left_iff_imp]
      exact fun mem => absurd (ok.sender c mem) e
  · rw [mem_union, mem_others, mem_toFinset]
    by_cases e : feePayer c = s
    · simp [e, queue]
    · rw [other _ e, ← h.heads c]
      simp only [e, ne_eq, not_false_eq_true, and_true, or_iff_left_iff_imp]
      exact fun mem => absurd (ok.sender c (mem_of_mem_take mem)) e

theorem lookup_setSender (p : IndexedPool Cmd A Hash R) (b : SenderState Cmd A) :
    (p.setSender b).allBySender.lookup b.sender = b.state := by
  unfold setSender
  split <;> simp [*]

theorem lookup_setSender_ne (p : IndexedPool Cmd A Hash R) (b : SenderState Cmd A) {s' : A} (ne : s' ≠ b.sender) :
    (p.setSender b).allBySender.lookup s' = p.allBySender.lookup s' := by
  unfold setSender
  split <;> simp [ne]

theorem Indexed.setSender (i : Indexed p C H) (b : SenderState Cmd A) : Indexed (p.setSender b) C H := by
  unfold IndexedPool.setSender
  split <;> exact i.withQueues _

@[simp] theorem setSender_slotTxEnd (p : IndexedPool Cmd A Hash R)
    (b : SenderState Cmd A) : (p.setSender b).slotTxEnd = p.slotTxEnd := by
  unfold setSender
  split <;> rfl

theorem Holds.track (h : Holds p C H) {us : List (Update Cmd)} (ok : StateOk s st)
    (t : Tracks s (p.queueOf s) (stateQueue st) us) :
    ∃ p', (p.setSender ⟨s, st⟩).applyUpdates us = .ok p' ∧
      Holds p' (others s C ∪ (stateQueue st).toFinset) (others s H ∪ ((stateQueue st).take 1).toFinset) ∧
      p'.allBySender.lookup s = st ∧
      (∀ s', s' ≠ s → p'.allBySender.lookup s' = p.allBySender.lookup s') ∧
      p'.slotTxEnd = p.slotTxEnd := by
  obtain ⟨p', run, indexed, same⟩ := t (p.setSender ⟨s, st⟩) (others s C) (others s H)
    (fun c mem => (mem_others.1 mem).2) (fun c mem => (mem_others.1 mem).2) ((h.split s).setSender _)
  have at_s : p'.allBySender.lookup s = st := by
    rw [same.1]
    exact lookup_setSender p ⟨s, st⟩
  have elsewhere : ∀ s', s' ≠ s → p'.allBySender.lookup s' = p.allBySender.lookup s' := by
    intro s' ne
    rw [same.1]
    exact lookup_setSender_ne p ⟨s, st⟩ ne
  exact ⟨p', run, h.rebuild ok at_s elsewhere indexed, at_s, elsewhere, by rw [same.2, setSender_slotTxEnd]⟩

/-! ## Removing a command with its dependents -/

theorem currencyToRemove_eq {q : List Cmd} : ∀ {acc : ℕ}, acc + totalCost q < 2 ^ 64 →
    q.foldlM (fun acc cmd => do
      let consumed ← okOr (.err .invalidCurrencyConsumed) (currencyConsumed cmd)
      okOr (.panic .unwrapNone) (checkedAdd consumed acc)) acc = (.ok (acc + totalCost q) : Except Stop ℕ) := by
  induction q with
  | nil => exact fun _ => rfl
  | cons c q ih =>
    intro acc bound
    rw [totalCost_cons] at bound
    have consumed : currencyConsumed c = some (cost c) := currencyConsumed_eq_some.2 ⟨by omega, rfl⟩
    have sum : checkedAdd (cost c) acc = some (acc + cost c) :=
      checkedAdd_eq_some.2 ⟨by omega, Nat.add_comm _ _⟩
    rw [foldlM_cons, consumed, okOr, ok_bind, sum, okOr, ok_bind, ih (by omega), totalCost_cons,
      Nat.add_assoc]

/-- **A command of the queue is found, and dropped with the commands behind it.** -/
theorem removeWithDependentsExnImpl_eq {q : List Cmd} {r : ℕ} (ok : QueueOk s q r) (mem : c ∈ q)
    (us : List (Update Cmd)) :
    ∃ (i : ℕ) (hi : i < q.length) (st : Option (List Cmd × ℕ)) (us' : List (Update Cmd)),
      q.get ⟨i, hi⟩ = c ∧
      removeWithDependentsExnImpl c ⟨s, some (q, r)⟩ us = .ok (⟨s, st⟩, us ++ us', q.drop i) ∧
      stateQueue st = q.take i ∧ StateOk s st ∧ Tracks s q (q.take i) us' ∧
      (i ≠ 0 → st = some (q.take i, totalCost (q.take i))) ∧ (i = 0 → st = none) := by
  obtain ⟨i, hi, get, found⟩ := findIdx_nonce ok.chain ok.short mem
  have dropNe : q.drop i ≠ [] := by
    rw [Ne, drop_eq_nil_iff]
    omega
  have parts : totalCost q = totalCost (q.take i) + totalCost (q.drop i) := by
    rw [← totalCost_append, take_append_drop]
  have bound := ok.bound
  have total := ok.reserved_eq
  have removed : currencyToRemove (q.drop i) = .ok (totalCost (q.drop i)) := by
    rw [currencyToRemove, currencyToRemove_eq (by omega), Nat.zero_add]
  have left : r - totalCost (q.drop i) = totalCost (q.take i) := by omega
  have tracks := Tracks.drop ok hi
  rw [get] at tracks
  by_cases zero : i = 0
  · subst zero
    refine ⟨0, hi, none, _, get, ?_, by simp, .none s, tracks, by simp, fun _ => rfl⟩
    simp only [removeWithDependentsExnImpl, okOr, ok_bind, myAssert, ensure_of ok.nonempty, found,
      ensure_of dropNe, removed, checkedSub_of_le (show totalCost (q.drop 0) ≤ r by omega), left,
      take_zero, ne_eq, not_true_eq_false, if_false, totalCost_nil, if_true, append_assoc]
    rfl
  · have keepNe : q.take i ≠ [] := by
      rw [Ne, take_eq_nil_iff, not_or]
      exact ⟨zero, ok.nonempty⟩
    refine ⟨i, hi, some (q.take i, totalCost (q.take i)), _, get, ?_, rfl,
      .some (ok.part (List.take_prefix i q).isInfix keepNe), tracks, fun _ => rfl, fun h => absurd h zero⟩
    simp only [removeWithDependentsExnImpl, okOr, ok_bind, myAssert, ensure_of ok.nonempty, found,
      ensure_of dropNe, removed, checkedSub_of_le (show totalCost (q.drop i) ≤ r by omega), left,
      keepNe, ne_eq, not_false_eq_true, if_true, zero, if_false, append_nil]
    rfl

/-- What a removal does to a pool: the commands in `dropped` leave, from the ends of
    their queues. -/
structure Removes (p p' : IndexedPool Cmd A Hash R) (C C' : Finset Cmd) (dropped : List Cmd) : Prop where
  commands : ∀ d, d ∈ C' ↔ d ∈ C ∧ d ∉ dropped
  dropped_mem : ∀ d ∈ dropped, d ∈ C
  nodup : dropped.Nodup
  fronts : ∀ s, p'.queueOf s <+: p.queueOf s
  slotTxEnd : p'.slotTxEnd = p.slotTxEnd

theorem Removes.refl (p : IndexedPool Cmd A Hash R) (C : Finset Cmd) : Removes p p C C [] where
  commands := by simp
  dropped_mem := by simp
  nodup := nodup_nil
  fronts s := prefix_refl _
  slotTxEnd := rfl

theorem Removes.trans {p p' p'' : IndexedPool Cmd A Hash R} {C C' C'' : Finset Cmd}
    {ds ds' : List Cmd} (r : Removes p p' C C' ds) (r' : Removes p' p'' C' C'' ds') :
    Removes p p'' C C'' (ds ++ ds') where
  commands d := by rw [r'.commands, r.commands, mem_append, not_or, and_assoc]
  dropped_mem d hd := by
    rcases mem_append.1 hd with hd | hd
    · exact r.dropped_mem d hd
    · exact ((r.commands d).1 (r'.dropped_mem d hd)).1
  nodup := nodup_append'.2 ⟨r.nodup, r'.nodup, fun d hd hd' =>
    ((r.commands d).1 (r'.dropped_mem d hd')).2 hd⟩
  fronts s := (r'.fronts s).trans (r.fronts s)
  slotTxEnd := r'.slotTxEnd.trans r.slotTxEnd

theorem Holds.removeWithDependents (h : Holds p C H) (mem : c ∈ C) :
    ∃ p' dropped C' H', p.removeWithDependentsExn c = .ok (p', dropped) ∧ Holds p' C' H' ∧
      Removes p p' C C' dropped ∧ c ∈ dropped ∧
      ∀ s, s ≠ feePayer c → p'.allBySender.lookup s = p.allBySender.lookup s := by
  have inQueue := (h.commands c).1 mem
  obtain ⟨⟨q, r⟩, state⟩ : ∃ e, p.allBySender.lookup (feePayer c) = some e := by
    cases hl : p.allBySender.lookup (feePayer c) with
    | none => rw [queueOf, hl] at inQueue; simp at inQueue
    | some e => exact ⟨e, rfl⟩
  have queue : p.queueOf (feePayer c) = q := by rw [queueOf, state, stateQueue_some]
  have ok := h.queues (feePayer c) q r state
  rw [queue] at inQueue
  obtain ⟨i, hi, st, us, get, run, stq, stOk, tracks, -⟩ := removeWithDependentsExnImpl_eq ok inQueue []
  rw [← stq, ← queue] at tracks
  obtain ⟨p', run', holds, at_s, elsewhere, slot⟩ := h.track stOk tracks
  refine ⟨p', q.drop i, _, _, ?_, holds, ⟨fun d => ?_, fun d hd => ?_, ok.nodup.sublist (drop_sublist i q),
    fun s => ?_, slot⟩, ?_, elsewhere⟩
  · unfold removeWithDependentsExn
    simp only [state, run, ok_bind, nil_append]
    rw [run']
    rfl
  · rw [mem_union, mem_others, mem_toFinset, stq, h.commands d]
    have parts : d ∈ q ↔ d ∈ q.take i ∨ d ∈ q.drop i := by
      rw [← mem_append, take_append_drop]
    have apart : d ∈ q.take i → d ∉ q.drop i :=
      disjoint_take_drop ok.nodup (le_refl i) (a := d)
    by_cases e : feePayer d = feePayer c
    · rw [e, queue]
      tauto
    · have out : d ∉ q := fun hd => e (ok.sender d hd)
      tauto
  · have inQ := mem_of_mem_drop hd
    rw [h.commands d, ok.sender d inQ, queue]
    exact inQ
  · by_cases e : s = feePayer c
    · rw [e, queue, queueOf, at_s, stq]
      exact take_prefix i q
    · rw [queueOf, elsewhere s e, queueOf]
  · rw [← get, drop_eq_getElem_cons hi]
    exact mem_cons_self

theorem Holds.removeAll : ∀ (order dropped₀ : List Cmd) {p : IndexedPool Cmd A Hash R}
    {C H : Finset Cmd}, Holds p C H → ∃ p' dropped C' H',
      order.foldlM removeIfMember (p, dropped₀) = .ok (p', dropped₀ ++ dropped) ∧
      Holds p' C' H' ∧ Removes p p' C C' dropped
  | [], dropped₀, p, C, H, h => ⟨p, [], C, H, by rw [append_nil]; rfl, h, .refl p C⟩
  | c :: order, dropped₀, p, C, H, h => by
    by_cases mem : p.member c
    · obtain ⟨p₁, ds, C₁, H₁, run₁, h₁, r₁, -⟩ := h.removeWithDependents (h.indexed.member_iff.1 mem)
      obtain ⟨p', ds', C', H', run', h', r'⟩ := Holds.removeAll order (dropped₀ ++ ds) h₁
      refine ⟨p', ds ++ ds', C', H', ?_, h', r₁.trans r'⟩
      rw [foldlM_cons, removeIfMember, if_pos mem, run₁, ← append_assoc]
      exact run'
    · obtain ⟨p', ds', C', H', run', h', r'⟩ := Holds.removeAll order dropped₀ h
      refine ⟨p', ds', C', H', ?_, h', r'⟩
      rw [foldlM_cons, removeIfMember, if_neg mem]
      exact run'

theorem Holds.removeExpired (h : Holds p C H) (order : List Cmd) :
    ∃ p' dropped C' H', p.removeExpired order = .ok (p', dropped) ∧ Holds p' C' H' ∧
      Removes p p' C C' dropped :=
  h.removeAll order []

theorem Indexed.minFee (i : Indexed p C H) (nonempty : C.Nonempty) :
    ∃ rate set c, p.minFee = some rate ∧ p.allByFee.lookup rate = some set ∧
      set.keys.argmin (hash : Cmd → Hash) = some c ∧ c ∈ C := by
  obtain ⟨d, hd⟩ := nonempty
  have stored : d ∈ setAt p.allByFee (feePerWu d) := (i.byFee.mem _ _).2 ⟨rfl, hd⟩
  have listed : feePerWu d ∈ p.allByFee.keys := by
    rw [← AList.mem_keys, ← AList.lookup_isSome]
    cases hl : p.allByFee.lookup (feePerWu d) with
    | none => rw [setAt, hl] at stored; exact absurd stored (AList.notMem_empty _)
    | some _ => rfl
  obtain ⟨rate, min⟩ : ∃ rate, p.allByFee.keys.min? = some rate := by
    cases hm : p.allByFee.keys.min? with
    | none => rw [List.min?_eq_none_iff.1 hm] at listed; cases listed
    | some rate => exact ⟨rate, rfl⟩
  have inKeys : rate ∈ p.allByFee := AList.mem_keys.2 (List.min?_mem min)
  obtain ⟨set, found⟩ := Option.isSome_iff_exists.1 (AList.lookup_isSome.2 inKeys)
  obtain ⟨e, he⟩ := i.byFee.nonempty rate set found
  obtain ⟨c, least⟩ : ∃ c, set.keys.argmin (hash : Cmd → Hash) = some c := by
    cases hc : set.keys.argmin (hash : Cmd → Hash) with
    | none =>
      rw [AList.mem_keys, argmin_eq_none.1 hc] at he
      cases he
    | some c => exact ⟨c, rfl⟩
  have mem : c ∈ set := AList.mem_keys.2 (argmin_mem least)
  have at_rate : setAt p.allByFee rate = set := by rw [setAt, found, Option.getD_some]
  exact ⟨rate, set, c, min, found, least, ((i.byFee.mem rate c).1 (at_rate ▸ mem)).2⟩

theorem Holds.removeLowestFee (h : Holds p C H) :
    ∃ p' dropped C' H', p.removeLowestFee = .ok (p', dropped) ∧ Holds p' C' H' ∧
      Removes p p' C C' dropped ∧ (C.Nonempty → ∃ c ∈ C, c ∈ dropped) := by
  rcases C.eq_empty_or_nonempty with rfl | nonempty
  · have none : p.minFee.bind (fun fee => p.allByFee.lookup fee) = Option.none := by
      cases hb : p.minFee.bind (fun fee => p.allByFee.lookup fee) with
      | none => rfl
      | some set =>
        obtain ⟨rate, -, found⟩ := Option.bind_eq_some_iff.1 hb
        obtain ⟨c, mem⟩ := h.indexed.byFee.nonempty rate set found
        have at_rate : setAt p.allByFee rate = set := by rw [setAt, found, Option.getD_some]
        exact absurd ((h.indexed.byFee.mem rate c).1 (at_rate ▸ mem)).2 (by simp)
    refine ⟨p, [], ∅, H, ?_, h, .refl p ∅, fun ne => absurd ne (by simp)⟩
    rw [IndexedPool.removeLowestFee, none]
  · obtain ⟨rate, set, c, min, found, least, mem⟩ := h.indexed.minFee nonempty
    obtain ⟨p', dropped, C', H', run, h', r, drop, -⟩ := h.removeWithDependents mem
    refine ⟨p', dropped, C', H', ?_, h', r, fun _ => ⟨c, mem, drop⟩⟩
    rw [IndexedPool.removeLowestFee, min, Option.bind_some, found]
    simp only [least, okOr, ok_bind]
    exact run

end IndexedPool
end MinaRust.TransactionPool
