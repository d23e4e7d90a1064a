/-
  The operations that add commands: `add_from_backtrack` and `add_from_gossip_exn`.

  A command from the network goes to the end of its sender's queue or replaces a queued
  command of the same nonce; the commands behind the replaced one are added again one by one
  until one of them does not fit.
-/
import MinaRust.TransactionPool.Membership

set_option linter.unusedSectionVars false

namespace MinaRust.TransactionPool.IndexedPool

open List Nat

variable {Cmd A Hash R : Type} [PoolCommand Cmd A Hash R]
  [DecidableEq Cmd] [DecidableEq A] [LinearOrder Hash] [LinearOrder R]
  {p p' : IndexedPool Cmd A Hash R} {C H : Finset Cmd} {c : Cmd} {s : A}

/-! ## Backtracking -/

/-- **A command of a rolled back block goes to the front of its sender's queue.** -/
theorem Holds.addFromBacktrack (h : Holds p C H) {slot current : ℕ}
    (room : (p.queueOf (feePayer c)).length < 2 ^ 32) (run : p.addFromBacktrack slot current c = .ok p') :
    ∃ C' H', Holds p' C' H' ∧ p'.queueOf (feePayer c) = c :: p.queueOf (feePayer c) ∧
      (∀ s, s ≠ feePayer c → p'.queueOf s = p.queueOf s) ∧ p'.slotTxEnd = p.slotTxEnd := by
  have split := h.split (feePayer c)
  have notOther : c ∉ others (feePayer c) C := fun mem => (mem_others.1 mem).2 rfl
  obtain ⟨-, -, run⟩ := bind_eq_ok.1 run
  obtain ⟨-, -, run⟩ := bind_eq_ok.1 run
  obtain ⟨consumed, hconsumed, run⟩ := bind_eq_ok.1 run
  obtain ⟨costLt, rfl⟩ := currencyConsumed_eq_some.1 (okOr_eq_ok.1 hconsumed)
  cases state : p.allBySender.lookup (feePayer c) with
  | none =>
    simp only [state] at run
    cases run
    have queue : p.queueOf (feePayer c) = [] := by rw [queueOf, state, stateQueue_none]
    rw [queue] at split
    simp only [toFinset_nil, Finset.union_empty, take_nil] at split
    have indexed := ((split.withQueues
      (p.allBySender.insert (feePayer c) ([c], cost c))).insertApplicable c).insertCommand notOther
    have ok : StateOk (feePayer c) (some ([c], cost c)) := .some (.singleton rfl costLt)
    have holds : Holds (insertCommand _ c) _ _ := h.rebuild ok (by simp [insertApplicable])
      (fun s' ne => by simp [insertApplicable, ne]) (indexed.of_iff (by simp) (by simp))
    refine ⟨_, _, holds, ?_, fun s ne => ?_, by simp [insertApplicable]⟩
    · rw [queue]
      simp [queueOf, insertApplicable]
    · simp [queueOf, insertApplicable, ne]
  | some e =>
    obtain ⟨q, r⟩ := e
    simp only [state] at run
    obtain ⟨first, hfirst, run⟩ := bind_eq_ok.1 run
    obtain ⟨_, nonce, run⟩ := bind_eq_ok.1 run
    obtain ⟨r', hr', run⟩ := bind_eq_ok.1 run
    cases run
    have hfirst := okOr_eq_ok.1 hfirst
    obtain ⟨bound, rfl⟩ := checkedAdd_eq_some.1 (okOr_eq_ok.1 hr')
    have queue : p.queueOf (feePayer c) = q := by rw [queueOf, state, stateQueue_some]
    rw [queue] at split room
    have ok := h.queues (feePayer c) q r state
    have ok' : QueueOk (feePayer c) (c :: q) (r + cost c) := by
      refine ok.cons rfl (fun d hd => ?_) bound room
      rw [Option.mem_def, hfirst, Option.some.injEq] at hd
      exact hd ▸ (ensure_eq_ok.1 nonce).symm
    have fresh : c ∉ q := (nodup_cons.1 ok'.nodup).1
    have head : (q.take 1).toFinset = {first} := by
      cases q with
      | nil => cases hfirst
      | cons d q => cases hfirst; simp
    have new : c ∉ others (feePayer c) C ∪ q.toFinset := by
      rw [Finset.mem_union, mem_toFinset, not_or]
      exact ⟨notOther, fresh⟩
    have indexed := (((split.withQueues (p.allBySender.insert (feePayer c) (c :: q, r + cost c)))
      |>.removeApplicable first).insertApplicable c).insertCommand new
    have firstSender : feePayer first = feePayer c :=
      ok.sender first (mem_of_mem_head? (by rw [hfirst]; rfl))
    have holds : Holds (insertCommand _ c) _ _ := h.rebuild (.some ok')
      (by simp [insertApplicable, removeApplicableExn])
      (fun s' ne => by simp [insertApplicable, removeApplicableExn, ne])
      (indexed.of_iff (fun d => by simp) fun d => by
        rw [head]
        simp only [Finset.mem_insert, Finset.mem_erase, Finset.mem_union, Finset.mem_singleton,
          mem_others, stateQueue_some, take_succ_cons, take_zero, toFinset_cons,
          toFinset_nil, insert_empty_eq]
        constructor
        · rintro (rfl | ⟨ne, mem | rfl⟩)
          · exact .inr rfl
          · exact .inl mem
          · exact absurd rfl ne
        · rintro (mem | rfl)
          · exact .inr ⟨fun e => mem.2 (e ▸ firstSender), .inl mem⟩
          · exact .inl rfl)
    refine ⟨_, _, holds, ?_, fun s ne => ?_, by simp [insertApplicable, removeApplicableExn]⟩
    · rw [queue]
      simp [queueOf, insertApplicable, removeApplicableExn]
    · simp [queueOf, insertApplicable, removeApplicableExn, ne]

/-! ## Appending -/

/-- The errors that an addition returns; it never stops for good. -/
def Refused (e : Stop) : Prop := ∃ reason, e = .err reason

theorem refused (reason : CommandError) : Refused (.err reason) := ⟨reason, rfl⟩

def Fits (st : Option (List Cmd × ℕ)) (c : Cmd) : Prop := ∀ d ∈ (stateQueue st).getLast?, Follows d c

/-- The outcome of an addition that puts the command at the end of the queue. -/
def Appends (slot balance : ℕ) (s : A) (st : Option (List Cmd × ℕ)) (us : List (Update Cmd)) (c : Cmd)
    (result : SenderState Cmd A × List (Update Cmd) × Cmd × List Cmd) : Prop :=
  ∃ r us', result = (⟨s, some (stateQueue st ++ [c], r)⟩, us ++ us', c, []) ∧
    QueueOk s (stateQueue st ++ [c]) r ∧ Tracks s (stateQueue st) (stateQueue st ++ [c]) us' ∧
    slot ≤ validUntil c ∧ r ≤ balance

variable {slotTxEnd : Option ℕ} {slot current balance : ℕ}

variable {st : Option (List Cmd × ℕ)}

variable (depth nonce : ℕ)

/-- **A command that comes right after the queue is appended to it**, at any depth of the
    recursion. -/
theorem addFromGossipExnImpl_append (ok : StateOk s st) (sender : feePayer c = s)
    (room : (stateQueue st).length < 2 ^ 32) (fits : Fits st c) (us : List (Update Cmd)) :
    Ends (addFromGossipExnImpl slotTxEnd slot current balance (depth + 1) c nonce ⟨s, st⟩ us)
      (Appends slot balance s st us c) Refused := by
  unfold addFromGossipExnImpl
  refine .ensure (refused _) fun _ => .ensure (refused _) fun alive => .okOr (refused _) ?_
  intro consumed hconsumed
  obtain ⟨costLt, rfl⟩ := currencyConsumed_eq_some.1 hconsumed
  match st, ok, room, fits with
  | none, _, _, _ =>
    refine .ensure (refused _) fun _ => .ensure (refused _) fun pays => ?_
    exact ⟨_, _, rfl, .singleton sender costLt, .first sender, alive, pays⟩
  | some (q, r), ok, room, fits =>
    have ok := ok q r rfl
    obtain ⟨first, hfirst⟩ := ok.head
    obtain ⟨last, hlast⟩ := ok.last
    refine .ensure (refused _) fun _ => .okOr_some hfirst (.okOr_some hlast ?_)
    have follows : expectedTargetNonce last = applicableAtNonce c := (fits last hlast).symm
    rw [if_pos follows]
    refine .okOr (refused _) fun r' hr' => .ensure (refused _) fun pays => ?_
    obtain ⟨bound, rfl⟩ := checkedAdd_eq_some.1 hr'
    have ok' := ok.snoc sender fits bound room
    have fresh : c ∉ q := fun mem =>
      disjoint_of_nodup_append ok'.nodup mem (mem_singleton.2 rfl)
    exact ⟨_, _, rfl, ok', .snoc sender ok.nonempty fresh, alive, pays⟩

variable {q : List Cmd}

/-- A command that has not expired is appended if the sender can pay for the queue. -/
theorem addFromGossipExnImpl_accepts {r : ℕ} (ok : QueueOk s q r) (fits : Fits (some (q, r)) c)
    (within : ∀ e ∈ slotTxEnd, current < e) (alive : slot ≤ validUntil c) (bound : cost c + r < 2 ^ 64)
    (pays : cost c + r ≤ balance) (us : List (Update Cmd)) : ∃ result,
    addFromGossipExnImpl slotTxEnd slot current balance (depth + 1) c nonce ⟨s, some (q, r)⟩ us = .ok result := by
  obtain ⟨first, hfirst⟩ := ok.head
  obtain ⟨last, hlast⟩ := ok.last
  have follows : expectedTargetNonce last = applicableAtNonce c := (fits last hlast).symm
  unfold addFromGossipExnImpl
  simp only [checkSlotTxEnd, ensure_of within, checkExpiry, ensure_of alive, okOr, ok_bind, myAssert,
    currencyConsumed_eq_some.2 ⟨lt_of_le_of_lt (le_add_right _ _) bound, rfl⟩, ensure_of ok.nonempty,
    hfirst, hlast, if_pos follows, checkedAdd_eq_some.2 ⟨bound, rfl⟩, ensure_of pays]
  exact ⟨_, rfl⟩

/-! ## Adding the commands behind a replaced one again -/

theorem Appends.tracks {us : List (Update Cmd)}
    {result : SenderState Cmd A × List (Update Cmd) × Cmd × List Cmd} (h : Appends slot balance s st us c result) :
    ∃ st' us', result = (⟨s, st'⟩, us ++ us', c, []) ∧ StateOk s st' ∧
      stateQueue st' = stateQueue st ++ [c] ∧ Tracks s (stateQueue st) (stateQueue st') us' := by
  obtain ⟨r, us', rfl, ok, t, -⟩ := h
  exact ⟨_, us', rfl, .some ok, rfl, t⟩

/-- The commands have not expired, and the sender can pay for them after `q`. -/
def FitAgain (slot balance : ℕ) (q tail : List Cmd) : Prop :=
  ∀ d ∈ tail, slot ≤ validUntil d ∧ totalCost (q ++ tail) < 2 ^ 64 ∧ totalCost (q ++ tail) ≤ balance

theorem fitAgain_cons {tail : List Cmd} : FitAgain slot balance q (c :: tail) ↔
    (slot ≤ validUntil c ∧ cost c + totalCost q < 2 ^ 64 ∧ cost c + totalCost q ≤ balance) ∧
      FitAgain slot balance (q ++ [c]) tail := by
  have total : totalCost (q ++ c :: tail) = totalCost (q ++ [c] ++ tail) := by simp
  have le : cost c + totalCost q ≤ totalCost (q ++ [c] ++ tail) := by
    simp only [totalCost_append, totalCost_cons, totalCost_nil]
    omega
  unfold FitAgain
  rw [total, forall_mem_cons]
  refine ⟨fun ⟨⟨alive, bound, pays⟩, rest⟩ => ⟨⟨alive, by omega, by omega⟩, rest⟩, ?_⟩
  rintro ⟨⟨alive, bound, pays⟩, rest⟩
  refine ⟨⟨alive, ?_⟩, rest⟩
  cases tail with
  | nil =>
    have none : totalCost (q ++ [c] ++ []) = cost c + totalCost q := by simp [add_comm]
    exact none ▸ ⟨bound, pays⟩
  | cons d tail => exact (rest d mem_cons_self).2

theorem chargeDropped_refused : ∀ (cs : List Cmd) (increment : ℕ),
    Ends (chargeDropped cs increment) (· ≤ increment) Refused
  | [], _ => le_refl _
  | c :: cs, increment => .checkedSub (refused _) fun _ =>
    (chargeDropped_refused cs (increment - fee c)).imp fun _ le => le.trans (sub_le _ _)

/-- **The commands are added again up to the first one that does not fit**; that one is
    neither added nor among the rest. -/
theorem readdTail_spec (depth : ℕ) (within : ∀ e ∈ slotTxEnd, current < e) : ∀ (tail : List Cmd)
    (nonce increment : ℕ) {q : List Cmd} {r : ℕ} (us : List (Update Cmd)), QueueOk s q r →
    (q ++ tail).IsChain Follows → (∀ d ∈ tail, feePayer d = s) → (q ++ tail).length ≤ 2 ^ 32 →
    Ends (readdTail (fun c nonce b => addFromGossipExnImpl slotTxEnd slot current balance (depth + 1) c nonce b [])
        tail nonce increment ⟨s, some (q, r)⟩ us)
      (fun result => ∃ r' us' increment' rest j, result = (⟨s, some (q ++ tail.take j, r')⟩, us ++ us', increment', rest) ∧
        QueueOk s (q ++ tail.take j) r' ∧ Tracks s q (q ++ tail.take j) us' ∧ increment' ≤ increment ∧
        rest.getD [] = tail.drop (j + 1) ∧ (tail.length ≤ j ↔ FitAgain slot balance q tail)) Refused
  | [], nonce, increment, q, r, us, ok, _, _, _ => by
    refine ⟨r, [], increment, none, 0, ?_, ?_, ?_, le_rfl, rfl, by simp [FitAgain]⟩ <;>
      simp only [take_nil, append_nil]
    · exact ok
    · exact .refl s q
  | c :: tail, nonce, increment, q, r, us, ok, chain, sender, short => by
    have fits : Fits (some (q, r)) c := fun d hd => (isChain_append.1 chain).2.2 d hd c rfl
    have room : q.length < 2 ^ 32 := by
      rw [length_append, length_cons] at short
      omega
    rw [forall_mem_cons] at sender
    have first : Ends (addFromGossipExnImpl slotTxEnd slot current balance (depth + 1) c (succNonce nonce)
        ⟨s, some (q, r)⟩ []) (Appends slot balance s (some (q, r)) [] c) Refused :=
      addFromGossipExnImpl_append depth (succNonce nonce) (.some ok) sender.1 room fits []
    unfold readdTail
    dsimp only
    cases hx : addFromGossipExnImpl slotTxEnd slot current balance (depth + 1) c (succNonce nonce)
        ⟨s, some (q, r)⟩ [] with
    | ok result =>
      obtain ⟨r₁, us₁, rfl, ok₁, t₁, alive, pays⟩ := first.result hx
      rw [stateQueue_some] at ok₁ t₁
      refine .ensure (refused _) fun _ => ?_
      have move : q ++ [c] ++ tail = q ++ c :: tail := by simp
      refine (readdTail_spec depth within tail (succNonce nonce) increment (us ++ us₁) ok₁ (move ▸ chain)
        sender.2 (move ▸ short)).imp ?_
      rintro _ ⟨r', us', increment', rest, j, rfl, ok', t', le, dropped, all⟩
      have queue : q ++ (c :: tail).take (j + 1) = q ++ [c] ++ tail.take j := by simp
      refine ⟨r', us₁ ++ us', increment', rest, j + 1, by simp, queue ▸ ok', queue ▸ t₁.trans t', le, dropped, ?_⟩
      have total : r₁ = cost c + totalCost q := by simp [ok₁.reserved_eq, add_comm]
      have bound := ok₁.bound
      rw [fitAgain_cons, length_cons, add_le_add_iff_right, all, ← total]
      exact ⟨fun rest => ⟨⟨alive, bound, pays⟩, rest⟩, And.right⟩
    | error e =>
      cases e with
      | err e =>
        refine (chargeDropped_refused (c :: tail) increment).bind fun increment' le => ?_
        refine ⟨r, [], increment', some tail, 0, by simp, by simpa using ok, by simpa using .refl s q, le, rfl, ?_⟩
        refine iff_of_false (by simp) fun fit => ?_
        obtain ⟨⟨alive, bound, pays⟩, -⟩ := fitAgain_cons.1 fit
        rw [← ok.reserved_eq] at bound pays
        obtain ⟨result, run⟩ := addFromGossipExnImpl_accepts depth (succNonce nonce) ok fits within alive bound pays []
        cases run.symm.trans hx
      | panic e =>
        rw [hx] at first
        exact first

/-! ## Replacing -/

theorem replaced_nonce (chain : q.IsChain Follows) (short : q.length ≤ 2 ^ 32) {first last : Cmd}
    (hfirst : q.head? = some first) (hlast : q.getLast? = some last) {nonce i : ℕ}
    (between : applicableAtNonce first ≤ nonce ∧ nonce ≤ expectedTargetNonce last)
    (notNext : expectedTargetNonce last ≠ nonce) (hi : i < q.length)
    (le : nonce ≤ applicableAtNonce (q.get ⟨i, hi⟩))
    (least : ∀ j (hj : j < i), ¬ nonce ≤ applicableAtNonce (q.get ⟨j, hj.trans hi⟩)) :
    applicableAtNonce (q.get ⟨i, hi⟩) = nonce := by
  have target := target_getLast chain hfirst hlast
  -- the queue does not wrap: its end is not before its front
  have flat : applicableAtNonce first + q.length < 2 ^ 32 := by
    have lt := PoolCommand.applicableAtNonce_lt first
    omega
  rw [nonce_from_head chain hfirst hi] at le ⊢
  rcases Nat.eq_zero_or_pos i with rfl | pos
  · omega
  · have before := least (i - 1) (by omega)
    rw [nonce_from_head chain hfirst] at before
    omega

theorem replaced_found (chain : q.IsChain Follows) {first last : Cmd} (hfirst : q.head? = some first)
    (hlast : q.getLast? = some last) {nonce : ℕ}
    (between : applicableAtNonce first ≤ nonce ∧ nonce ≤ expectedTargetNonce last)
    (notNext : expectedTargetNonce last ≠ nonce) :
    ∃ i, q.findIdx? (fun c => nonce ≤ applicableAtNonce c) = some i := by
  have target := target_getLast chain hfirst hlast
  have reached : nonce ≤ applicableAtNonce last := by
    have lt := PoolCommand.applicableAtNonce_lt first
    rw [expectedTargetNonce, succNonce] at target between notNext
    omega
  cases search : q.findIdx? fun c => decide (nonce ≤ applicableAtNonce c) with
  | some i => exact ⟨i, rfl⟩
  | none =>
    have missed := List.findIdx?_eq_none_iff.1 search last (mem_of_getLast? hlast)
    simp [reached] at missed

/-- What becomes of a queue with a new command, and what is reported as dropped. -/
inductive Placed (slot balance : ℕ) (q : List Cmd) (c : Cmd) : List Cmd → List Cmd → Prop where
  | appended (follows : ∀ d ∈ q.getLast?, Follows d c) : Placed slot balance q c (q ++ [c]) []
  | replaced (i j : ℕ) (hi : i < q.length) (same : applicableAtNonce (q.get ⟨i, hi⟩) = applicableAtNonce c)
      (fee_lt : fee (q.get ⟨i, hi⟩) < fee c)
      (all : (q.drop (i + 1)).length ≤ j ↔ FitAgain slot balance (q.take i ++ [c]) (q.drop (i + 1))) :
      Placed slot balance q c (q.take i ++ [c] ++ (q.drop (i + 1)).take j)
        (q.get ⟨i, hi⟩ :: (q.drop (i + 1)).drop (j + 1))

def Updates (slot balance : ℕ) (s : A) (st : Option (List Cmd × ℕ)) (us : List (Update Cmd)) (c : Cmd)
    (result : SenderState Cmd A × List (Update Cmd) × Cmd × List Cmd) : Prop :=
  ∃ st' us' dropped, result = (⟨s, st'⟩, us ++ us', c, dropped) ∧ StateOk s st' ∧
    Placed slot balance (stateQueue st) c (stateQueue st') dropped ∧ Tracks s (stateQueue st) (stateQueue st') us'

/-- **The updates of an addition follow the queue of the sender.** -/
theorem addFromGossipExnImpl_spec (ok : StateOk s st) (sender : feePayer c = s)
    (room : Fits st c → (stateQueue st).length < 2 ^ 32) (us : List (Update Cmd)) :
    Ends (addFromGossipExnImpl slotTxEnd slot current balance (depth + 2) c nonce ⟨s, st⟩ us)
      (Updates slot balance s st us c) Refused := by
  by_cases fits : Fits st c
  · refine (addFromGossipExnImpl_append (depth + 1) nonce ok sender (room fits) fits us).imp fun _ h => ?_
    obtain ⟨st', us', rfl, ok, queue, t⟩ := h.tracks
    exact ⟨st', us', [], rfl, ok, queue ▸ .appended fits, t⟩
  match st, ok, fits with
  | none, _, fits => exact absurd (fun d hd => nomatch hd) fits
  | some (q, r), ok, fits =>
    have ok := ok q r rfl
    unfold addFromGossipExnImpl
    refine .ensure (refused _) fun within => .ensure (refused _) fun _ => .okOr (refused _) ?_
    intro consumed _
    obtain ⟨first, hfirst⟩ := ok.head
    obtain ⟨last, hlast⟩ := ok.last
    refine .ensure (refused _) fun _ => .okOr_some hfirst (.okOr_some hlast ?_)
    have notNext : expectedTargetNonce last ≠ applicableAtNonce c := by
      intro next
      refine fits fun d hd => ?_
      rw [stateQueue_some, hlast] at hd
      cases hd
      exact next.symm
    rw [if_neg notNext]
    by_cases front : applicableAtNonce first = nonce
    swap
    · rw [if_neg front]
      exact .error (refused _)
    rw [if_pos front]
    refine .ensure (refused _) fun between => ?_
    obtain ⟨i, found⟩ := replaced_found ok.chain hfirst hlast between notNext
    refine .okOr_some found ?_
    obtain ⟨hi, le, least⟩ := List.findIdx?_eq_some_iff_getElem.1 found
    have same : applicableAtNonce (q.get ⟨i, hi⟩) = applicableAtNonce c :=
      replaced_nonce ok.chain ok.short hfirst hlast between notNext hi (by simpa using le)
        fun j hj => by simpa using least j hj
    have chain := chain_replace ok.chain hi same
    dsimp only
    rw [drop_eq_getElem_cons hi]
    refine .ensure (refused _) fun _ => .ensure (refused _) fun feeLe => ?_
    obtain ⟨i', hi', st₁, us₁, get, run, queue₁, ok₁, t₁, -⟩ :=
      removeWithDependentsExnImpl_eq ok (get_mem q ⟨i, hi⟩) us
    obtain rfl : i = i' := eq_of_nonce_eq ok.chain ok.short hi hi' (congrArg applicableAtNonce get.symm)
    have run' : removeWithDependentsExnImpl (q.get ⟨i, hi⟩) ⟨s, some (q, r)⟩ us =
        .ok (⟨s, st₁⟩, us ++ us₁, q.get ⟨i, hi⟩ :: q.drop (i + 1)) := by
      rw [run, drop_eq_getElem_cons hi]
      rfl
    rw [← get_eq_getElem (i := ⟨i, hi⟩), run', ok_bind]
    have fits₁ : Fits st₁ c := fun d hd => by
      rw [queue₁] at hd
      exact (isChain_append.1 chain).2.2 d hd c rfl
    have short := ok.short
    have room₁ : (stateQueue st₁).length < 2 ^ 32 := by
      rw [queue₁, length_take]
      omega
    refine .ensure (refused _) fun _ =>
      (addFromGossipExnImpl_append depth nonce ok₁ sender room₁ fits₁ (us ++ us₁)).bind fun _ added => ?_
    obtain ⟨r₂, us₂, rfl, ok₂, t₂, -⟩ := added
    rw [queue₁] at ok₂ t₂
    have whole : q.take i ++ [c] ++ q.drop (i + 1) = q.take i ++ c :: q.drop (i + 1) := by simp
    refine .ensure (refused _) fun _ => .checkedSub_le feeLe ?_
    rw [queue₁]
    refine (readdTail_spec depth within (q.drop (i + 1)) nonce _ (us ++ us₁ ++ us₂) ok₂ (whole ▸ chain)
      (fun d hd => ok.sender d (mem_of_mem_drop hd)) ?_).bind ?_
    · rw [whole]
      simp only [length_append, length_take, length_cons, length_drop]
      omega
    · rintro _ ⟨r₃, us₃, increment, rest, j, rfl, ok₃, t₃, le, dropped, all⟩
      refine .ensure (refused _) fun enough => ?_
      have fee_lt : fee (q.get ⟨i, hi⟩) < fee c := by
        dsimp only [REPLACE_FEE] at enough
        omega
      refine ⟨_, us₁ ++ us₂ ++ us₃, _, by simp only [append_assoc]; rfl, .some ok₃, ?_, (t₁.trans t₂).trans t₃⟩
      rw [dropped]
      exact .replaced i j hi same fee_lt all

theorem Placed.mem {q q' dropped : List Cmd} (placed : Placed slot balance q c q' dropped) :
    ∀ d ∈ q', d = c ∨ d ∈ q := by
  intro d hd
  cases placed with
  | appended => exact (mem_append.1 hd).elim .inr fun mem => .inl (mem_singleton.1 mem)
  | replaced i j hi =>
    simp only [mem_append, mem_singleton] at hd
    rcases hd with (hd | hd) | hd
    · exact .inr (mem_of_mem_take hd)
    · exact .inl hd
    · exact .inr (mem_of_mem_drop (mem_of_mem_take hd))

/-- **A command from the network changes the queue of its sender only**, and adds no other
    command to it. -/
theorem Holds.addFromGossip_ends (h : Holds p C H) (nonce : ℕ) (room : (p.queueOf (feePayer c)).length < 2 ^ 32) :
    Ends (p.addFromGossipExn slot current c nonce balance)
      (fun result => ∃ C' H', Holds result.1 C' H' ∧ ∀ d ∈ C', d = c ∨ d ∈ C) Refused := by
  refine (addFromGossipExnImpl_spec _ nonce (h.queues (feePayer c)) rfl (fun _ => room) []).bind ?_
  rintro _ ⟨st, us, dropped, rfl, ok, placed, t⟩
  obtain ⟨p', run, holds, -⟩ := h.track ok t
  dsimp only
  rw [nil_append, run, ok_bind]
  refine ⟨_, _, holds, fun d hd => ?_⟩
  rcases Finset.mem_union.1 hd with hd | hd
  · exact .inr (mem_others.1 hd).1
  · rcases placed.mem d (mem_toFinset.1 hd) with e | old
    · exact .inl e
    · have sender := (h.queues (feePayer c)).sender d old
      exact .inr ((h.commands d).2 (by rwa [sender]))

/-! ## What is reported -/

/-- If the command replaces a queued one, all commands behind that one fit again. -/
def KeepsTail (p : IndexedPool Cmd A Hash R) (slot balance : ℕ) (c : Cmd) : Prop :=
  let q := p.queueOf (feePayer c)
  ¬ Fits (p.allBySender.lookup (feePayer c)) c →
    ∀ i, q.findIdx? (fun d => applicableAtNonce d = applicableAtNonce c) = some i →
      FitAgain slot balance (q.take i ++ [c]) (q.drop (i + 1))

theorem addFromGossipExnImpl_fits (ok : StateOk s st) (fits : Fits st c) (us : List (Update Cmd)) :
    Ends (addFromGossipExnImpl slotTxEnd slot current balance (depth + 1) c nonce ⟨s, st⟩ us)
      (fun result => ∃ first, result.2 = (us ++ [.add c first], c, [])) fun _ => True := by
  unfold addFromGossipExnImpl
  refine .ensure trivial fun _ => .ensure trivial fun _ => .okOr trivial fun _ _ => ?_
  match st, ok, fits with
  | none, _, _ => exact .ensure trivial fun _ => .ensure trivial fun _ => ⟨true, rfl⟩
  | some (q, r), ok, fits =>
    have ok := ok q r rfl
    obtain ⟨first, hfirst⟩ := ok.head
    obtain ⟨last, hlast⟩ := ok.last
    refine .ensure trivial fun _ => .okOr_some hfirst (.okOr_some hlast ?_)
    rw [if_pos (fits last hlast).symm]
    exact .okOr trivial fun _ _ => .ensure trivial fun _ => ⟨false, rfl⟩

/-- The command that does not fit again is the one at `j`: it leaves the queue, and is not
    reported. -/
theorem replaced_report_iff {tail : List Cmd} {old : Cmd} (j : ℕ) (nodup : (q ++ old :: tail).Nodup)
    (new : c ∉ q ++ old :: tail) :
    (∀ e, e ∈ q ++ [c] ++ tail.take j ↔ (e ∈ q ++ old :: tail ∨ e = c) ∧ e ∉ old :: tail.drop (j + 1)) ↔
      tail.length ≤ j := by
  constructor
  · intro exact
    by_contra lt
    have hj : j < tail.length := by omega
    have parts : tail = tail.take j ++ tail.get ⟨j, hj⟩ :: tail.drop (j + 1) := by simp
    generalize tail.take j = kept, tail.get ⟨j, hj⟩ = lost, tail.drop (j + 1) = dropped at parts exact
    subst parts
    have := exact lost
    grind
  · intro le e
    rw [take_of_length_le le, drop_eq_nil_of_le (by omega)]
    grind

theorem Placed.dropped_mem {q' dropped : List Cmd} (placed : Placed slot balance q c q' dropped) :
    ∀ d ∈ dropped, d ∈ q := by
  intro d hd
  cases placed with
  | appended => cases hd
  | replaced i j hi =>
    rcases mem_cons.1 hd with rfl | hd
    · exact get_mem q _
    · exact mem_of_mem_drop (mem_of_mem_drop hd)

theorem Placed.report_iff {q' dropped : List Cmd} (chain : q.IsChain Follows) (short : q.length ≤ 2 ^ 32)
    (placed : Placed slot balance q c q' dropped) (fits : ¬ ∀ d ∈ q.getLast?, Follows d c) :
    (∀ e, e ∈ q' ↔ (e ∈ q ∨ e = c) ∧ e ∉ dropped) ↔
      ∀ i, q.findIdx? (fun d => applicableAtNonce d = applicableAtNonce c) = some i →
        FitAgain slot balance (q.take i ++ [c]) (q.drop (i + 1)) := by
  cases placed with
  | appended follows => exact absurd follows fits
  | replaced i j hi same fee_lt all =>
    obtain ⟨i', hi', get, found⟩ := findIdx_nonce chain short (get_mem q ⟨i, hi⟩)
    obtain rfl : i' = i := eq_of_nonce_eq chain short hi' hi (congrArg applicableAtNonce get)
    have parts : q = q.take i' ++ q.get ⟨i', hi⟩ :: q.drop (i' + 1) := by simp
    have new : c ∉ q := by
      intro mem
      obtain ⟨k, hk, get, found'⟩ := findIdx_nonce chain short mem
      rw [← same, found] at found'
      cases found'
      rw [get] at fee_lt
      exact lt_irrefl _ fee_lt
    have report := replaced_report_iff j (parts ▸ nodup_of_chain chain short) (parts ▸ new)
    rw [← parts, all] at report
    rw [report, ← same, found]
    simp [Option.some.injEq, forall_eq']

/-- **The report is exact if and only if the commands behind a replaced one all fit again.**
    The first one that does not fit leaves the pool without being reported. -/
theorem drop_report_iff {added : Cmd} {dropped : List Cmd} {nonce : ℕ} (valid : p.Valid)
    (run : p.addFromGossipExn slot current c nonce balance = .ok (p', added, dropped)) :
    (∀ e, p'.member e ↔ (p.member e ∨ e = added) ∧ e ∉ dropped) ↔ p.KeepsTail slot balance c := by
  obtain ⟨C, H, h⟩ := valid
  obtain ⟨⟨b, us, _, _⟩, impl, run⟩ := bind_eq_ok.1 run
  obtain ⟨p₁, apply, run⟩ := bind_eq_ok.1 run
  cases run
  by_cases fits : Fits (p.allBySender.lookup (feePayer c)) c
  · obtain ⟨first, result⟩ := (addFromGossipExnImpl_fits _ nonce (h.queues (feePayer c)) fits []).result impl
    cases result
    cases apply
    refine iff_of_true (fun e => ?_) (absurd fits)
    rw [updateAdd, member_insertCommand]
    split <;> simp [member_setSender, or_comm]
  · obtain ⟨st, us', _, result, ok, placed, t⟩ :=
      (addFromGossipExnImpl_spec _ nonce (h.queues (feePayer c)) rfl (absurd · fits) []).result impl
    cases result
    obtain ⟨p', run', holds, -⟩ := h.track ok t
    cases apply.symm.trans run'
    have sender := (h.queues (feePayer c)).sender
    obtain ⟨chain, short⟩ := (h.queues (feePayer c)).chain
    have keeps : p.KeepsTail slot balance c ↔ _ := forall_prop_of_true fits
    rw [keeps, queueOf, ← placed.report_iff chain short fits]
    refine forall_congr' fun e => ?_
    rw [holds.indexed.member_iff, h.indexed.member_iff, Finset.mem_union, mem_others, mem_toFinset, h.commands e]
    by_cases same : feePayer e = feePayer c
    · rw [same]
      simp [queueOf]
    · have ne : e ≠ c := fun eq => same (congrArg feePayer eq)
      have old : e ∉ stateQueue (p.allBySender.lookup (feePayer c)) := fun mem => same (sender e mem)
      have kept := mt (placed.mem e) (not_or.2 ⟨ne, old⟩)
      simp [same, ne, old, kept, mt (placed.dropped_mem e) old]

end IndexedPool

/-! ## Three payments of one sender -/

/-- Two payments with the nonces `0` and `1`, and one that replaces the first. -/
inductive Transfer where
  | first
  | second
  | better
  deriving DecidableEq, Repr

instance : PoolCommand Transfer Unit ℕ ℕ where
  hash
    | .first => 0
    | .second => 1
    | .better => 2
  hash_injective a b := by cases a <;> cases b <;> simp
  feePayer _ := ()
  fee
    | .better => 10
    | _ => 1
  amount
    | .better => 90
    | _ => 0
  feePerWu
    | .better => 10
    | _ => 1
  applicableAtNonce
    | .second => 1
    | _ => 0
  applicableAtNonce_lt c := by cases c <;> decide
  validUntil _ := slotMax
  validUntil_lt _ := by decide

namespace IndexedPool

/-- The pool after the sender, with a balance of `100`, has sent the payments. -/
def sent (cmds : List Transfer) : Except Stop (IndexedPool Transfer Unit ℕ ℕ) :=
  cmds.foldlM (fun p c => do return (← p.addFromGossipExn 0 0 c 0 100).1) new

theorem sent_valid : ∃ p, sent [.first, .second] = .ok p ∧ p.Valid := by
  refine ⟨_, rfl, ?_⟩
  obtain ⟨C, H, first, -⟩ := (Holds.new.addFromGossip_ends 0 (by decide)).result
    (show new.addFromGossipExn 0 0 Transfer.first 0 100 = .ok _ from rfl)
  obtain ⟨C', H', second, -⟩ := (first.addFromGossip_ends 0 (by decide)).result
    (show addFromGossipExn _ 0 0 Transfer.second 0 100 = .ok _ from rfl)
  exact ⟨C', H', second⟩

/-- **The second payment leaves the pool and is not reported**: after the replacement of the
    first one the balance does not cover it. -/
theorem replacement_loses_command : ∃ p p', p.Valid ∧ sent [.first, .second] = .ok p ∧
    p.addFromGossipExn 0 0 .better 0 100 = .ok (p', .better, [.first]) ∧
    p.member .second ∧ ¬ p'.member .second := by
  obtain ⟨p, run, valid⟩ := sent_valid
  cases run
  exact ⟨_, _, valid, rfl, rfl, by decide, by decide⟩

theorem drop_report_richer : ∃ p p', p.Valid ∧ sent [.first, .second] = .ok p ∧
    p.addFromGossipExn 0 0 .better 0 101 = .ok (p', .better, [.first]) ∧
    ∀ e, p'.member e ↔ (p.member e ∨ e = .better) ∧ e ∉ [Transfer.first] := by
  obtain ⟨p, run, valid⟩ := sent_valid
  cases run
  refine ⟨_, _, valid, rfl, rfl, (drop_report_iff valid
    (show addFromGossipExn _ 0 0 Transfer.better 0 101 = _ from rfl)).2 fun _ i found => ?_⟩
  cases found
  intro d mem
  cases List.mem_singleton.1 mem
  decide

end MinaRust.TransactionPool.IndexedPool
