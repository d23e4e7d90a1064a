/-
  `revalidate`: of every queue it keeps the longest front that the balance pays of the part
  from the account's nonce on (`Keeps`).
-/
import MinaRust.TransactionPool.Removal

set_option linter.unusedSectionVars false

namespace MinaRust.TransactionPool.IndexedPool

open List IndexedPool

variable {Cmd A Hash R : Type} [PoolCommand Cmd A Hash R]
  [DecidableEq Cmd] [DecidableEq A] [LinearOrder Hash] [LinearOrder R]
  {p p' : IndexedPool Cmd A Hash R} {C H : Finset Cmd} {c : Cmd} {s : A}

/-! ## What is kept of a queue -/

/-- From the account's nonce on, unless the account may not send or its nonce is before the
    queue. -/
def stillApplicable (account : AccountView) : List Cmd → List Cmd
  | [] => []
  | first :: rest =>
    if account.permitted = false ∨ account.nonce < applicableAtNonce first then []
    else (first :: rest).dropWhile fun c => !decide (applicableAtNonce c = account.nonce)

/-- **What `revalidate` keeps of a queue**: the longest front of the applicable part that the
    account can pay. -/
structure Keeps (account : AccountView) (q keep : List Cmd) : Prop where
  front : keep <+: stillApplicable account q
  payable : totalCost keep ≤ account.liquidBalance
  longest : ∀ l, l <+: stillApplicable account q → totalCost l ≤ account.liquidBalance → l.length ≤ keep.length

theorem stillApplicable_suffix (account : AccountView) (q : List Cmd) : stillApplicable account q <:+ q := by
  unfold stillApplicable
  split
  · exact suffix_rfl
  · split
    · exact nil_suffix
    · exact dropWhile_suffix _

theorem Keeps.part {account : AccountView} {q keep : List Cmd} (keeps : Keeps account q keep) : keep <:+: q :=
  keeps.front.isInfix.trans (stillApplicable_suffix account q).isInfix

theorem Keeps.nonce {account : AccountView} {q keep : List Cmd} (keeps : Keeps account q keep) {c : Cmd}
    (head : keep.head? = some c) : applicableAtNonce c = account.nonce := by
  have head : (stillApplicable account q).head? = some c := by
    obtain ⟨rest, eq⟩ := keeps.front
    rw [← eq, List.head?_append, head, Option.some_or]
  unfold stillApplicable at head
  split at head
  · cases head
  · split at head
    · cases head
    · next first rest _ =>
      have := List.head?_dropWhile_not (fun c => !decide (applicableAtNonce c = account.nonce)) (first :: rest)
      rw [head] at this
      simpa using this

theorem releaseCurrency_eq : ∀ {q : List Cmd} {r : ℕ}, totalCost q ≤ r → r < 2 ^ 64 →
    releaseCurrency r q = .ok (r - totalCost q)
  | [], r, _, _ => rfl
  | c :: q, r, le, bound => by
    rw [totalCost_cons] at le
    have consumed : currencyConsumed c = some (cost c) := currencyConsumed_eq_some.2 ⟨by omega, rfl⟩
    have rest : releaseCurrency (r - cost c) q = .ok (r - cost c - totalCost q) :=
      releaseCurrency_eq (by omega) (by omega)
    rw [releaseCurrency, foldlM_cons, consumed, okOr, ok_bind, checkedSub_of_le (by omega), ok_bind,
      totalCost_cons, ← Nat.sub_sub]
    exact rest

theorem dropUntilSufficientBalance_eq (balance : ℕ) : ∀ {queueRev : List Cmd},
    totalCost queueRev.reverse < 2 ^ 64 → ∃ keep dropped,
      dropUntilSufficientBalance queueRev (totalCost queueRev.reverse) balance =
        .ok (keep, totalCost keep, dropped) ∧ queueRev.reverse = keep ++ dropped.reverse ∧
      totalCost keep ≤ balance ∧
      ∀ l, l <+: queueRev.reverse → totalCost l ≤ balance → l.length ≤ keep.length
  | [], _ => ⟨[], [], by simp [dropUntilSufficientBalance], rfl, by simp, fun l front _ => front.length_le⟩
  | last :: queueRev, bound => by
    rw [reverse_cons, totalCost_append, totalCost_cons, totalCost_nil] at bound ⊢
    unfold dropUntilSufficientBalance
    by_cases enough : totalCost queueRev.reverse + (cost last + 0) ≤ balance
    · have whole : totalCost (queueRev.reverse ++ [last]) = totalCost queueRev.reverse + (cost last + 0) := by
        rw [totalCost_append, totalCost_cons, totalCost_nil]
      refine ⟨queueRev.reverse ++ [last], [], ?_, by simp, whole.trans_le enough, fun l front _ => front.length_le⟩
      rw [if_pos enough, reverse_cons, whole]
    · obtain ⟨keep, dropped, run, parts, payable, longest⟩ := dropUntilSufficientBalance_eq balance
        (show totalCost queueRev.reverse < 2 ^ 64 by omega)
      have consumed : currencyConsumed last = some (cost last) :=
        currencyConsumed_eq_some.2 ⟨by omega, rfl⟩
      have left : totalCost queueRev.reverse + (cost last + 0) - cost last = totalCost queueRev.reverse := by
        omega
      refine ⟨keep, last :: dropped, ?_, by rw [parts]; simp, payable, fun l front le => ?_⟩
      swap
      · rcases prefix_concat_iff.1 front with rfl | front
        · rw [totalCost_append, totalCost_cons, totalCost_nil] at le
          exact absurd le enough
        · exact longest l front le
      rw [if_neg enough]
      simp only [consumed, okOr, ok_bind, checkedSub_of_le (show cost last ≤
        totalCost queueRev.reverse + (cost last + 0) by omega), left, run]
      rfl

def keptState (keep : List Cmd) : Option (List Cmd × ℕ) :=
  if keep = [] then none else some (keep, totalCost keep)

@[simp] theorem stateQueue_keptState (keep : List Cmd) : stateQueue (keptState keep) = keep := by
  unfold keptState
  split
  · next e => rw [e, stateQueue_none]
  · rfl

variable {keep q : List Cmd}

theorem keptState_ok {r : ℕ} (ok : QueueOk s q r) (part : keep <:+: q) : StateOk s (keptState keep) := by
  unfold keptState
  split
  · exact .none s
  · next ne => exact .some (ok.part part ne)

theorem erase_head {first : Cmd} (sender : feePayer first = s) (hfirst : q.head? = some first) :
    (others s H ∪ (q.take 1).toFinset).erase first = others s H := by
  have head : (q.take 1).toFinset = {first} := by
    cases q with
    | nil => cases hfirst
    | cons d q => cases hfirst; simp
  ext d
  simp only [head, Finset.mem_erase, Finset.mem_union, Finset.mem_singleton, mem_others]
  constructor
  · rintro ⟨ne, mem | e⟩
    · exact mem
    · exact absurd e ne
  · exact fun mem => ⟨fun e => mem.2 (e ▸ sender), .inl mem⟩

/-- **The queue and its head are replaced**; the commands that are dropped are still in the
    indexes. -/
theorem Holds.retainQueue (h : Holds p C H) {a b : List Cmd} {r : ℕ} {first : Cmd}
    (state : p.allBySender.lookup s = some (q, r)) (hfirst : q.head? = some first)
    (parts : q = a ++ keep ++ b.reverse) :
    let p₁ := p.retainQueue s first a b keep (totalCost keep)
    Indexed p₁ (others s C ∪ q.toFinset) (others s H ∪ (keep.take 1).toFinset) ∧
      p₁.allBySender.lookup s = keptState keep ∧
      (∀ s', s' ≠ s → p₁.allBySender.lookup s' = p.allBySender.lookup s') ∧
      p₁.slotTxEnd = p.slotTxEnd := by
  have split := h.split s
  have ok := h.queues s q r state
  have queue : p.queueOf s = q := by rw [queueOf, state, stateQueue_some]
  have sender : feePayer first = s := ok.sender first (mem_of_mem_head? (by rw [hfirst]; rfl))
  rw [queue] at split
  intro p₁
  by_cases whole : a = [] ∧ b = []
  · obtain ⟨rfl, rfl⟩ := whole
    simp only [nil_append, reverse_nil, append_nil] at parts
    have same : p₁ = p := if_pos ⟨rfl, rfl⟩
    rw [same, ← parts, state, keptState, if_neg ok.nonempty, ok.reserved_eq]
    exact ⟨split, rfl, fun _ _ => rfl, rfl⟩
  cases keep with
  | nil =>
    have p₁_eq : p₁ = { p.removeApplicableExn first with allBySender := p.allBySender.erase s } :=
      if_neg whole
    rw [p₁_eq]
    refine ⟨?_, by simp [keptState], fun s' ne => by simp [ne], rfl⟩
    refine ((split.removeApplicable first).withQueues _).of_iff (fun _ => Iff.rfl) fun d => ?_
    rw [erase_head sender hfirst]
    simp
  | cons k keep =>
    have kept : keptState (k :: keep) = some (k :: keep, totalCost (k :: keep)) := if_neg (by simp)
    by_cases fromFront : a = []
    · have p₁_eq : p₁ = { p with
          allBySender := p.allBySender.insert s (k :: keep, totalCost (k :: keep)) } := by
        simp [p₁, retainQueue, if_neg whole, List.head?_cons, if_pos fromFront]
      have head : q.take 1 = (k :: keep).take 1 := by simp [parts, fromFront]
      rw [p₁_eq, kept]
      exact ⟨head ▸ split.withQueues _, by simp, fun s' ne => by simp [ne], rfl⟩
    · have p₁_eq : p₁ = ({ p with
          allBySender := p.allBySender.insert s (k :: keep, totalCost (k :: keep)) }.removeApplicableExn
            first).insertApplicable k := by
        simp [p₁, retainQueue, if_neg whole, List.head?_cons, if_neg fromFront]
      rw [p₁_eq, kept]
      refine ⟨?_, by simp [insertApplicable, removeApplicableExn],
        fun s' ne => by simp [insertApplicable, removeApplicableExn, ne], rfl⟩
      refine (((split.withQueues _).removeApplicable first).insertApplicable k).of_iff
        (fun _ => Iff.rfl) fun d => ?_
      rw [erase_head sender hfirst]
      simp

/-! ## One queue -/

/-- What `revalidate` does to the queue of one sender. -/
structure Revalidates (s : A) (p p' : IndexedPool Cmd A Hash R) (C C' : Finset Cmd)
    (dropped : List Cmd) : Prop where
  commands : ∀ d, d ∈ C' ↔ d ∈ C ∧ d ∉ dropped
  elsewhere : ∀ s', s' ≠ s → p'.allBySender.lookup s' = p.allBySender.lookup s'
  slotTxEnd : p'.slotTxEnd = p.slotTxEnd

theorem Holds.cut (h : Holds p C H) {a b : List Cmd} {r : ℕ} {first : Cmd}
    (state : p.allBySender.lookup s = some (q, r)) (hfirst : q.head? = some first)
    (parts : q = a ++ keep ++ b.reverse) :
    ∃ p' C' H', (p.retainQueue s first a b keep (totalCost keep)).updateRemoveAllByFeeAndHashAndExpiration
        (a ++ b) = .ok p' ∧ Holds p' C' H' ∧ Revalidates s p p' C C' (a ++ b) ∧
      p'.allBySender.lookup s = keptState keep ∧ ∀ d ∈ a ++ b, d ∈ C := by
  have ok := h.queues s q r state
  have queue : p.queueOf s = q := by rw [queueOf, state, stateQueue_some]
  have nodup := ok.nodup
  have mem : ∀ d, d ∈ q ↔ d ∈ keep ∨ d ∈ a ++ b := fun d => by
    rw [parts]
    simp only [mem_append, mem_reverse]
    tauto
  obtain ⟨nodupDrop, apart⟩ : (a ++ b).Nodup ∧ ∀ d ∈ keep, d ∉ a ++ b := by
    have perm : List.Perm q (keep ++ (a ++ b)) := by
      rw [parts, ← append_assoc]
      exact (perm_append_comm.append b.reverse_perm)
    rw [perm.nodup_iff, nodup_append'] at nodup
    exact ⟨nodup.2.1, fun d hd => nodup.2.2 hd⟩
  obtain ⟨indexed, at_s, elsewhere, slotTxEnd⟩ := h.retainQueue state hfirst parts
  obtain ⟨p', run, indexed', same⟩ := indexed.removeCommands nodupDrop fun d hd =>
    Finset.mem_union_right _ (mem_toFinset.2 ((mem d).2 (.inr hd)))
  have outside : ∀ d ∈ a ++ b, feePayer d = s := fun d hd => ok.sender d ((mem d).2 (.inr hd))
  have rebuilt : Indexed p' (others s C ∪ (stateQueue (keptState keep)).toFinset)
      (others s H ∪ ((stateQueue (keptState keep)).take 1).toFinset) := by
    rw [stateQueue_keptState]
    refine indexed'.of_iff (fun d => ?_) fun d => Iff.rfl
    simp only [Finset.mem_sdiff, Finset.mem_union, mem_toFinset, mem_others, mem d]
    constructor
    · rintro ⟨mem | mem | mem, out⟩
      · exact .inl mem
      · exact .inr mem
      · exact absurd mem out
    · rintro (mem | mem)
      · exact ⟨.inl mem, fun hd => mem.2 (outside d hd)⟩
      · exact ⟨.inr (.inl mem), apart d mem⟩
  have gone : ∀ d ∈ a ++ b, d ∈ C := fun d hd => by
    rw [h.commands, outside d hd, queue]
    exact (mem d).2 (.inr hd)
  have state' : p'.allBySender.lookup s = keptState keep := by rw [same.1, at_s]
  refine ⟨p', _, _, run, h.rebuild (keptState_ok ok ⟨a, b.reverse, parts.symm⟩) state'
    (fun s' ne => by rw [same.1, elsewhere s' ne]) rebuilt, ⟨fun d => ?_,
    fun s' ne => by rw [same.1, elsewhere s' ne], same.2.trans slotTxEnd⟩, state', gone⟩
  rw [Finset.mem_union, mem_others, mem_toFinset, stateQueue_keptState, h.commands d]
  by_cases e : feePayer d = s
  · rw [e, queue, mem d]
    have := apart d
    tauto
  · have out : d ∉ keep := fun hd => e (ok.sender d ((mem d).2 (.inl hd)))
    have out' : d ∉ a ++ b := fun hd => e (outside d hd)
    tauto

theorem Holds.revalidateSender (h : Holds p C H) (account : AccountView) {q : List Cmd} {r : ℕ}
    (state : p.allBySender.lookup s = some (q, r)) :
    ∃ p' dropped C' H' keep, revalidateSender account s q r p = .ok (p', dropped) ∧ Holds p' C' H' ∧
      Revalidates s p p' C C' dropped ∧ p'.allBySender.lookup s = keptState keep ∧
      (∀ d ∈ dropped, d ∈ C) ∧ Keeps account q keep := by
  have ok := h.queues s q r state
  have queue : p.queueOf s = q := by rw [queueOf, state, stateQueue_some]
  cases q with
  | nil => exact absurd rfl ok.nonempty
  | cons first rest =>
  have sender : feePayer first = s := ok.sender first mem_cons_self
  unfold IndexedPool.revalidateSender
  simp only [List.head?_cons, okOr, ok_bind]
  by_cases out : account.permitted = false ∨ account.nonce < applicableAtNonce first
  · have mem : first ∈ C := (h.commands first).2 (by rw [sender, queue]; exact mem_cons_self)
    obtain ⟨p', dropped, C', H', run, h', removes, gone, elsewhere⟩ := h.removeWithDependents mem
    have empty : p'.queueOf s = [] := by
      rcases prefix_cons_iff.1 (queue ▸ removes.fronts s) with none | ⟨rest', eq, -⟩
      · exact none
      · have : first ∈ C' := (h'.commands first).2 (by rw [sender, eq]; exact mem_cons_self)
        exact absurd gone ((removes.commands first).1 this).2
    have none : stillApplicable account (first :: rest) = [] := if_pos out
    refine ⟨p', dropped, C', H', [], by rw [if_pos out, run], h', ⟨removes.commands, sender ▸ elsewhere,
      removes.slotTxEnd⟩, ?_, removes.dropped_mem, ⟨by rw [none], by simp, fun l front _ => ?_⟩⟩
    · cases state' : p'.allBySender.lookup s with
      | none => rfl
      | some e =>
        rw [queueOf, state', stateQueue_some] at empty
        exact absurd empty (h'.queues s e.1 e.2 state').nonempty
    · rw [none] at front
      exact front.length_le
  · have applicable : stillApplicable account (first :: rest) = (first :: rest).drop
        (((first :: rest).findIdx? fun c => decide (applicableAtNonce c = account.nonce)).getD (first :: rest).length) := by
      rw [stillApplicable, if_neg out, dropWhile_eq_drop_findIdx_not, List.findIdx_eq_getD_findIdx?]
      simp
    rw [if_neg out]
    generalize hq : first :: rest = q at *
    generalize (q.findIdx? fun c => decide (applicableAtNonce c = account.nonce)).getD q.length = index at *
    have total : totalCost q = totalCost (q.take index) + totalCost (q.drop index) := by
      rw [← totalCost_append, take_append_drop]
    have reserved := ok.reserved_eq
    have bound := ok.bound
    have released : releaseCurrency r (q.take index) = .ok (totalCost (q.drop index)) := by
      rw [releaseCurrency_eq (by omega) ok.bound]
      exact congrArg _ (by omega)
    obtain ⟨keep, b, run, parts, payable, longest⟩ := dropUntilSufficientBalance_eq account.liquidBalance
      (show totalCost (q.drop index).reverse.reverse < 2 ^ 64 by rw [reverse_reverse]; omega)
    rw [reverse_reverse] at run parts longest
    obtain ⟨p', C', H', cut, h', r', state', gone⟩ := h.cut state (by rw [← hq]; rfl)
      (show q = q.take index ++ keep ++ b.reverse by
        rw [append_assoc, ← parts, take_append_drop])
    rw [← applicable] at parts longest
    refine ⟨p', _, C', H', keep, ?_, h', r', state', gone, ⟨b.reverse, parts.symm⟩, payable, longest⟩
    simp only [released, ok_bind, run, cut]
    rfl

/-! ## The whole pool -/

/-- The senders of the snapshot that are still to be visited have the queues of the
    snapshot. -/
def Current (p : IndexedPool Cmd A Hash R) (order : List (Sigma fun _ : A => List Cmd × ℕ)) : Prop :=
  order.NodupKeys ∧ ∀ e ∈ order, p.allBySender.lookup e.1 = some e.2

def Revalidated (requires : A → Bool) (getAccount : A → Option AccountView)
    (p p' : IndexedPool Cmd A Hash R) (s : A) : Prop :=
  if requires s then ∃ account keep, getAccount s = some account ∧ Keeps account (p.queueOf s) keep ∧
    p'.allBySender.lookup s = keptState keep
  else p'.allBySender.lookup s = p.allBySender.lookup s

theorem Holds.revalidateAll {requires : A → Bool} {getAccount : A → Option AccountView} :
    ∀ (order : List (Sigma fun _ : A => List Cmd × ℕ)) (dropped₀ : List Cmd)
      {p : IndexedPool Cmd A Hash R} {C H : Finset Cmd}, Holds p C H → Current p order →
      Ends (order.foldlM (revalidateStep requires getAccount) (p, dropped₀))
        (fun result => ∃ dropped C' H', result.2 = dropped₀ ++ dropped ∧ Holds result.1 C' H' ∧
          (∀ d, d ∈ C' ↔ d ∈ C ∧ d ∉ dropped) ∧ (∀ d ∈ dropped, d ∈ C) ∧ result.1.slotTxEnd = p.slotTxEnd ∧
          (∀ s ∈ order.keys, Revalidated requires getAccount p result.1 s) ∧
          ∀ s ∉ order.keys, result.1.allBySender.lookup s = p.allBySender.lookup s)
        fun e => e = .err .accountNotFound ∧ ∃ id, requires id = true ∧ getAccount id = none
  | [], dropped₀, p, C, H, h, _ => ⟨[], C, H, by simp, h, by simp, by simp, rfl, by simp, fun _ _ => rfl⟩
  | e :: order, dropped₀, p, C, H, h, current => by
    obtain ⟨nodup, lookup⟩ := current
    rw [nodupKeys_cons] at nodup
    rw [forall_mem_cons] at lookup
    rw [foldlM_cons, revalidateStep]
    by_cases required : requires e.1 = true
    swap
    · rw [if_neg required]
      refine (Holds.revalidateAll order dropped₀ h ⟨nodup.2, lookup.2⟩).imp ?_
      rintro ⟨p', _⟩ ⟨ds, C', H', rfl, h', commands, gone, slotTxEnd, visited, others⟩
      refine ⟨ds, C', H', rfl, h', commands, gone, slotTxEnd, fun s mem => ?_, fun s out => ?_⟩
      · rcases mem_cons.1 mem with rfl | mem
        · rw [Revalidated, if_neg required]
          exact others _ nodup.1
        · exact visited s mem
      · exact others s fun mem => out (mem_cons_of_mem _ mem)
    rw [if_pos required]
    cases account : getAccount e.1 with
    | none => exact .error ⟨rfl, e.1, required, account⟩
    | some view =>
      obtain ⟨p₁, ds, C₁, H₁, keep, run, h₁, r₁, state, gone, keeps⟩ := h.revalidateSender view lookup.1
      have apart : ∀ e' ∈ order, e'.1 ≠ e.1 := fun e' he' same => nodup.1 (same ▸ mem_map_of_mem he')
      have later : Current p₁ order := ⟨nodup.2, fun e' he' => by
        rw [r₁.elsewhere e'.1 (apart e' he')]
        exact lookup.2 e' he'⟩
      simp only [okOr, ok_bind, run]
      refine (Holds.revalidateAll order (dropped₀ ++ ds) h₁ later).imp ?_
      rintro ⟨p', _⟩ ⟨ds', C', H', rfl, h', commands, gone', slotTxEnd, visited, others⟩
      refine ⟨ds ++ ds', C', H', by simp, h', fun d => ?_, fun d hd => ?_, slotTxEnd.trans r₁.slotTxEnd,
        fun s mem => ?_, fun s out => ?_⟩
      · rw [commands, r₁.commands, mem_append, not_or, and_assoc]
      · rcases mem_append.1 hd with hd | hd
        · exact gone d hd
        · exact ((r₁.commands d).1 (gone' d hd)).1
      · rcases mem_cons.1 mem with rfl | mem
        · rw [Revalidated, if_pos required]
          refine ⟨view, keep, account, ?_, (others _ nodup.1).trans state⟩
          rwa [queueOf, lookup.1, stateQueue_some]
        · obtain ⟨e', he', rfl⟩ := mem_map.1 mem
          have := visited _ mem
          rwa [Revalidated, queueOf, r₁.elsewhere _ (apart e' he')] at this
      · rw [others s fun mem => out (mem_cons_of_mem _ mem)]
        exact r₁.elsewhere s fun same => out (same ▸ mem_cons_self)

/-- **`revalidate` keeps the invariant**, in whatever order it meets the senders; it fails
    only when it does not find an account. -/
theorem Holds.revalidate (h : Holds p C H) (requires : A → Bool) (getAccount : A → Option AccountView)
    {order : List (Sigma fun _ : A => List Cmd × ℕ)} (perm : order.Perm p.allBySender.entries) :
    Ends (revalidate requires getAccount order p)
      (fun result => ∃ C' H', Holds result.1 C' H' ∧
        (∀ d, d ∈ C' ↔ d ∈ C ∧ d ∉ result.2) ∧ (∀ d ∈ result.2, d ∈ C) ∧ result.1.slotTxEnd = p.slotTxEnd ∧
        (∀ s, p.allBySender.lookup s ≠ none → Revalidated requires getAccount p result.1 s) ∧
        ∀ s, p.allBySender.lookup s = none → result.1.allBySender.lookup s = none)
      fun e => e = .err .accountNotFound ∧ ∃ id, requires id = true ∧ getAccount id = none := by
  have current : Current p order := by
    refine ⟨(perm_nodupKeys perm).2 p.allBySender.nodupKeys, fun e he => ?_⟩
    exact AList.mem_lookup_iff.2 (perm.mem_iff.1 he)
  refine (h.revalidateAll order [] current).imp ?_
  rintro ⟨p', dropped⟩ ⟨ds, C', H', rfl, h', commands, gone, slotTxEnd, visited, others⟩
  have keys : ∀ s, s ∈ order.keys ↔ p.allBySender.lookup s ≠ none := fun s => by
    rw [Ne, AList.lookup_eq_none, not_not]
    exact (perm.map Sigma.fst).mem_iff
  refine ⟨C', H', h', commands, gone, slotTxEnd, fun s known => visited s ((keys s).2 known), fun s none => ?_⟩
  rw [← none]
  exact others s fun mem => (keys s).1 mem none

end MinaRust.TransactionPool.IndexedPool
