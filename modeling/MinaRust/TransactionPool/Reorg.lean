/-
  Commands of rolled back blocks come back to the pool.

  The diff lists the rolled back commands in the order of the old chain, and
  `add_from_backtrack` puts each one in front of its sender's queue.
-/
import MinaRust.TransactionPool.ChainDiff
import MinaRust.TransactionPool.LocallyGenerated

set_option linter.unusedSectionVars false
set_option linter.dupNamespace false

namespace MinaRust.TransactionPool

open List AList IndexedPool VkRefcountTable Option

variable {Cmd A Hash R Fp Vk : Type} [PoolCommand Cmd A Hash R]
  [VkCommand Cmd A Fp Vk] [DecidableEq Cmd] [DecidableEq A] [LinearOrder Hash]
  [LinearOrder R] [DecidableEq Fp]

/-! ## Verification keys -/

def VkRefcountTable.Counted (t : VkRefcountTable A Fp Vk) : Prop :=
  ∀ h count vk, t.verificationKeys.lookup h = some (count, vk) → 0 < count

theorem VkRefcountTable.Counted.inc {t : VkRefcountTable A Fp Vk} (counted : t.Counted)
    (hash : Vk → Fp) (a : A) (vk : Vk) : (t.inc hash a vk).Counted := by
  intro h count old found
  unfold VkRefcountTable.inc incKeys at found
  dsimp only at found
  cases present : t.verificationKeys.lookup (hash vk) with
  | _ =>
    simp only [present] at found
    by_cases e : h = hash vk
    · rw [e, lookup_insert, some.injEq, Prod.mk.injEq] at found
      omega
    · rw [lookup_insert_ne e] at found
      exact counted h count old found

theorem VkRefcountTable.Counted.decKeys {t : VkRefcountTable A Fp Vk} (counted : t.Counted) (k : Fp) :
    ∃ keys bugs, VkRefcountTable.decKeys k t.verificationKeys = .ok (keys, bugs) ∧
      ∀ h count vk, keys.lookup h = some (count, vk) → 0 < count := by
  unfold VkRefcountTable.decKeys
  cases present : t.verificationKeys.lookup k with
  | none => exact ⟨_, _, rfl, counted⟩
  | some entry =>
    obtain ⟨n, vk⟩ := entry
    have pos := counted k n vk present
    by_cases one : n = 1
    · refine ⟨t.verificationKeys.erase k, [], if_pos one, fun h count vk found => ?_⟩
      by_cases e : h = k
      · rw [e, lookup_erase] at found
        cases found
      · rw [lookup_erase_ne e] at found
        exact counted h count vk found
    · refine ⟨t.verificationKeys.insert k (n - 1, vk), [], ?_, fun h count vk' found => ?_⟩
      · dsimp only
        rw [if_neg one, checkedSub_of_le pos]
        rfl
      · by_cases e : h = k
        · rw [e, lookup_insert, some.injEq, Prod.mk.injEq] at found
          omega
        · rw [lookup_insert_ne e] at found
          exact counted h count vk' found

theorem VkRefcountTable.Counted.call (hash : Vk → Fp) (s : VkRefcountTable A Fp Vk × List BugCondition)
    (c : Call A Fp Vk) (counted : s.1.Counted) :
    ∃ s', VkRefcountTable.call hash s c = .ok s' ∧ s'.1.Counted := by
  cases c with
  | inc a vk => exact ⟨_, rfl, counted.inc hash a vk⟩
  | dec a h =>
    obtain ⟨keys, bugs, run, counted'⟩ := counted.decKeys h
    simp only [VkRefcountTable.call, VkRefcountTable.dec, run, ok_bind]
    exact ⟨_, rfl, counted'⟩

theorem VkRefcountTable.Counted.forCommands (hash : Vk → Fp) (extractVks : Cmd → List (A × Vk))
    (toCall : A × Vk → Call A Fp Vk) (cs : List Cmd)
    {s : VkRefcountTable A Fp Vk × List BugCondition} (counted : s.1.Counted) :
    ∃ s', VkRefcountTable.forCommands hash extractVks toCall cs s = .ok s' ∧ s'.1.Counted :=
  foldlM_total (P := fun s : VkRefcountTable A Fp Vk × List BugCondition => s.1.Counted)
    (fun _ c counted => foldlM_total
      (fun s p counted => VkRefcountTable.Counted.call hash s (toCall p) counted) (extractVks c) counted)
    cs counted

namespace TransactionPool

open IndexedPool (Drops Holds Removes Valid)

variable {t t' : TransactionPool Cmd A Hash R Fp Vk} {c : Cmd} {cs : List Cmd}

theorem incrementVks_total (counted : t.verificationKeyTable.Counted) (cs : List Cmd) :
    ∃ table : VkRefcountTable A Fp Vk,
      t.incrementVks cs = .ok { t with verificationKeyTable := table } ∧ table.Counted := by
  obtain ⟨s, run, counted'⟩ := VkRefcountTable.Counted.forCommands (vkHash Cmd) extractVks
    (fun p => .inc p.1 p.2) cs (show (t.verificationKeyTable, ([] : List BugCondition)).1.Counted from counted)
  refine ⟨s.1, ?_, counted'⟩
  unfold incrementVks incrementHashed
  rw [run]
  rfl

theorem decrementVks_total (counted : t.verificationKeyTable.Counted) (cs : List Cmd) :
    ∃ table : VkRefcountTable A Fp Vk,
      t.decrementVks cs = .ok { t with verificationKeyTable := table } ∧ table.Counted := by
  obtain ⟨s, run, counted'⟩ := VkRefcountTable.Counted.forCommands (vkHash Cmd) extractVks
    (fun p => .dec p.1 (vkHash Cmd p.2)) cs
    (show (t.verificationKeyTable, ([] : List BugCondition)).1.Counted from counted)
  refine ⟨s.1, ?_, counted'⟩
  unfold decrementVks decrementHashed
  rw [run]
  rfl

/-! ## Accepting a rolled back command -/

/-- A rolled back command fits in front of its sender's queue. -/
def Accepts (p : IndexedPool Cmd A Hash R) (c : Cmd) : Prop :=
  cost c + totalCost (p.queueOf (feePayer c)) < 2 ^ 64 ∧
    ∀ first ∈ (p.queueOf (feePayer c)).head?, expectedTargetNonce c = applicableAtNonce first

variable {p : IndexedPool Cmd A Hash R}

theorem addFromBacktrack_iff {slot current : ℕ} (valid : Valid p) (noEnd : p.slotTxEnd = none)
    (alive : slot ≤ validUntil c) : (∃ p', p.addFromBacktrack slot current c = .ok p') ↔ Accepts p c := by
  obtain ⟨C, H, h⟩ := valid
  have within : ∀ e ∈ p.slotTxEnd, current < e := by simp [noEnd]
  unfold addFromBacktrack checkSlotTxEnd checkExpiry Accepts
  rw [ensure_of within, ensure_of alive]
  simp only [ok_bind]
  cases state : p.allBySender.lookup (feePayer c) with
  | none =>
    have queue : p.queueOf (feePayer c) = [] := by rw [queueOf, state, stateQueue_none]
    simp only [queue, totalCost_nil, Nat.add_zero, List.head?_nil, mem_def, reduceCtorEq,
      false_implies, implies_true, and_true]
    constructor
    · rintro ⟨p', run⟩
      obtain ⟨consumed, hconsumed, -⟩ := bind_eq_ok.1 run
      exact (currencyConsumed_eq_some.1 (okOr_eq_ok.1 hconsumed)).1
    · intro bound
      rw [currencyConsumed_eq_some.2 ⟨bound, rfl⟩]
      exact ⟨_, rfl⟩
  | some e =>
    obtain ⟨q, r⟩ := e
    have ok := h.queues (feePayer c) q r state
    have queue : p.queueOf (feePayer c) = q := by rw [queueOf, state, stateQueue_some]
    obtain ⟨first, hfirst⟩ := ok.head
    rw [queue, hfirst, ← ok.reserved_eq]
    simp only [mem_def, some.injEq, forall_eq']
    constructor
    · rintro ⟨p', run⟩
      obtain ⟨consumed, hconsumed, run⟩ := bind_eq_ok.1 run
      obtain ⟨-, rfl⟩ := currencyConsumed_eq_some.1 (okOr_eq_ok.1 hconsumed)
      obtain ⟨first', hfirst', run⟩ := bind_eq_ok.1 run
      obtain rfl : first = first' := Option.some.inj (hfirst.symm.trans (okOr_eq_ok.1 hfirst'))
      obtain ⟨_, nonce, run⟩ := bind_eq_ok.1 run
      obtain ⟨r', sum, -⟩ := bind_eq_ok.1 run
      have bound := (checkedAdd_eq_some.1 (okOr_eq_ok.1 sum)).1
      exact ⟨by omega, ensure_eq_ok.1 nonce⟩
    · rintro ⟨bound, nonce⟩
      rw [currencyConsumed_eq_some.2 ⟨by omega, rfl⟩]
      simp only [hfirst, okOr, ok_bind, ensure_of nonce, checkedAdd_eq_some.2 ⟨show r + cost c < 2 ^ 64 by omega, rfl⟩]
      exact ⟨_, rfl⟩

theorem Accepts.front {p p' : IndexedPool Cmd A Hash R} (accepts : Accepts p c)
    (front : p'.queueOf (feePayer c) <+: p.queueOf (feePayer c)) : Accepts p' c := by
  obtain ⟨bound, nonce⟩ := accepts
  obtain ⟨rest, parts⟩ := front
  rw [← parts] at bound nonce
  rw [totalCost_append] at bound
  refine ⟨by omega, fun first hfirst => nonce first ?_⟩
  rw [List.head?_append, mem_def.1 hfirst]
  rfl

theorem Accepts.notMember {C H : Finset Cmd} (h : Holds p C H) (small : p.size < 2 ^ 32) (accepts : Accepts p c) :
    c ∉ C := by
  intro mem
  have inQueue := (h.commands c).1 mem
  have length := h.queue_length_le (feePayer c)
  cases state : p.allBySender.lookup (feePayer c) with
  | none =>
    rw [queueOf, state] at inQueue
    cases inQueue
  | some e =>
    obtain ⟨q, r⟩ := e
    have ok := h.queues (feePayer c) q r state
    have queue : p.queueOf (feePayer c) = q := by rw [queueOf, state, stateQueue_some]
    obtain ⟨first, hfirst⟩ := ok.head
    have target := accepts.2 first (by rw [queue, hfirst]; rfl)
    rw [queue] at inQueue length
    obtain ⟨⟨i, hi⟩, rfl⟩ := mem_iff_get.1 inQueue
    rw [expectedTargetNonce, succNonce, nonce_from_head ok.chain hfirst hi] at target
    omega

/-! ## The loop over the rolled back commands -/

theorem dropUntil_small {poolMaxSize : ℕ} (small : p.size ≤ poolMaxSize) :
    ∀ rounds, dropUntil poolMaxSize rounds p = .ok (p, [])
  | 0 => rfl
  | rounds + 1 => by
    unfold dropUntil
    rw [if_neg (by omega)]

/-- **Commands of different senders that fit in front of their queues are all accepted**, also
    when the pool has to make room in between. -/
theorem backtrack_total {slot current : ℕ} : ∀ {cmds : List Cmd}
    {t : TransactionPool Cmd A Hash R Fp Vk} {ds : List Cmd}, Valid t.pool →
    t.pool.slotTxEnd = none → t.pool.size + cmds.length < 2 ^ 32 → (cmds.map feePayer).Nodup →
    (∀ c ∈ cmds, slot ≤ validUntil c) → (∀ c ∈ cmds, Accepts t.pool c) → ds.Nodup →
    (∀ c ∈ ds, ¬ t.pool.member c ∧ c ∉ cmds) →
    ∃ t' ds', cmds.foldlM (backtrackStep slot current) (t, ds) = .ok (t', ds') ∧ ds'.Nodup
  | [], t, ds, _, _, _, _, _, _, nodup, _ => ⟨t, ds, rfl, nodup⟩
  | c :: cmds, t, ds, valid, noEnd, small, senders, alive, accepts, nodup, gone => by
    rw [length_cons] at small
    rw [map_cons, nodup_cons] at senders
    rw [forall_mem_cons] at alive accepts
    obtain ⟨p₁, add⟩ : ∃ p₁, t.pool.addFromBacktrack slot current c = .ok p₁ :=
      (addFromBacktrack_iff valid noEnd alive.1).2 accepts.1
    obtain ⟨C, H, h⟩ := valid
    have length := h.queue_length_le (feePayer c)
    obtain ⟨C₁, H₁, h₁, queue, others, end₁⟩ := h.addFromBacktrack (show _ < 2 ^ 32 by omega) add
    obtain ⟨member, size⟩ := addFromBacktrack_member add
    obtain ⟨p₂, ds₁, C₂, H₂, trim, h₂, removes, -⟩ := h₁.dropUntil t.poolMaxSize p₁.size
    have drops : Drops p₁ p₂ ds₁ := dropUntil_drops trim
    have dropped : ∀ d ∈ ds₁, d = c ∨ t.pool.member d := fun d hd =>
      (member d).1 (h₁.indexed.member_iff.2 (removes.dropped_mem d hd))
    have otherSender : ∀ e ∈ cmds, feePayer e ≠ feePayer c := fun e he same =>
      senders.1 (same ▸ mem_map_of_mem he)
    have step : backtrackStep slot current (t, ds) c = .ok ({ t.uncommit c with pool := p₂ }, ds ++ ds₁) := by
      unfold backtrackStep dropUntilBelowMaxSize
      simp only [uncommit_pool, uncommit_poolMaxSize, add, trim, ok_bind]
      rfl
    rw [foldlM_cons, step]
    refine backtrack_total ⟨C₂, H₂, h₂⟩ ?_ ?_ senders.2 alive.2 (fun e he => ?_) ?_ fun d hd => ?_
    · exact (removes.slotTxEnd.trans end₁).trans noEnd
    · have shrunk := drops.size_le
      dsimp only
      omega
    · refine (accepts.2 e he).front ?_
      rw [← others _ (otherSender e he)]
      exact removes.fronts _
    · refine nodup_append'.2 ⟨nodup, removes.nodup, fun d hd hd' => ?_⟩
      obtain ⟨out, notCmd⟩ := gone d hd
      rcases dropped d hd' with rfl | inPool
      · exact notCmd mem_cons_self
      · exact out inPool
    · rw [drops.member, member]
      rcases mem_append.1 hd with hd | hd
      · obtain ⟨out, notCmd⟩ := gone d hd
        rw [mem_cons, not_or] at notCmd
        exact ⟨fun h => h.1.elim notCmd.1 out, notCmd.2⟩
      · refine ⟨fun h => h.2 hd, fun later => ?_⟩
        rcases dropped d hd with rfl | inPool
        · exact otherSender d later rfl
        · exact (accepts.2 d later).notMember h (by omega) (h.indexed.member_iff.1 inPool)

/-- **A pool with room accepts the commands of the old chain only if they have different
    senders and fit in front of their queues.** -/
theorem backtrack_accepts {slot current : ℕ} : ∀ {cmds : List Cmd}
    {t : TransactionPool Cmd A Hash R Fp Vk} {ds : List Cmd}
    {s' : TransactionPool Cmd A Hash R Fp Vk × List Cmd}, Valid t.pool →
    t.pool.slotTxEnd = none → t.pool.size + cmds.length < 2 ^ 32 →
    t.pool.size + cmds.length ≤ t.poolMaxSize → (∀ c ∈ cmds, slot ≤ validUntil c) →
    cmds.Pairwise (fun a b => feePayer a = feePayer b → expectedTargetNonce b ≠ applicableAtNonce a) →
    cmds.foldlM (backtrackStep slot current) (t, ds) = .ok s' →
    (cmds.map feePayer).Nodup ∧ ∀ c ∈ cmds, Accepts t.pool c
  | [], _, _, _, _, _, _, _, _, _, _ => by simp
  | c :: cmds, t, ds, s', valid, noEnd, small, room, alive, order, run => by
    rw [length_cons] at small room
    rw [forall_mem_cons] at alive
    rw [pairwise_cons] at order
    obtain ⟨s₁, first, rest⟩ := bind_eq_ok.1 run
    obtain ⟨p₁, p₂, ds₁, add, trim, rfl⟩ := backtrackStep_eq first
    have accepts := (addFromBacktrack_iff valid noEnd alive.1).1 ⟨p₁, add⟩
    obtain ⟨C, H, h⟩ := valid
    have length := h.queue_length_le (feePayer c)
    obtain ⟨C₁, H₁, h₁, queue, others, end₁⟩ := h.addFromBacktrack (show _ < 2 ^ 32 by omega) add
    have size : p₁.size = t.pool.size + 1 := (addFromBacktrack_member add).2
    have untrimmed : dropUntilBelowMaxSize t.poolMaxSize p₁ = .ok (p₁, []) :=
      dropUntil_small (by omega) p₁.size
    cases trim.symm.trans untrimmed
    obtain ⟨senders, later⟩ := backtrack_accepts ⟨C₁, H₁, h₁⟩ (end₁.trans noEnd) (by dsimp only; omega)
      (by rw [uncommit_poolMaxSize]; dsimp only; omega) alive.2 order.2 rest
    have otherSender : ∀ e ∈ cmds, feePayer e ≠ feePayer c := by
      intro e he same
      refine order.1 e he same.symm ((later e he).2 c ?_)
      rw [same, queue]
      rfl
    refine ⟨?_, forall_mem_cons.2 ⟨accepts, fun e he => ?_⟩⟩
    · rw [map_cons, nodup_cons]
      refine ⟨fun mem => ?_, senders⟩
      obtain ⟨e, he, same⟩ := mem_map.1 mem
      exact otherSender e he same
    · refine (later e he).front ?_
      rw [others _ (otherSender e he)]

/-! ## The rest of `handle_transition_frontier_diff` -/

theorem commitStep_total (counted : t.verificationKeyTable.Counted)
    (apart : ∀ c ∈ t.locallyGeneratedUncommitted, c ∉ t.locallyGeneratedCommitted) (c : Cmd) :
    ∃ t', t.commitStep c = .ok t' ∧ t'.verificationKeyTable.Counted ∧
      ∀ c ∈ t'.locallyGeneratedUncommitted, c ∉ t'.locallyGeneratedCommitted := by
  obtain ⟨table, vks, counted'⟩ := decrementVks_total counted [c]
  obtain ⟨t', run, counted''⟩ : ∃ t', t.commitStep c = .ok t' ∧ t'.verificationKeyTable.Counted := by
    unfold commitStep
    rw [vks, ok_bind]
    cases found : t.locallyGeneratedUncommitted.lookup c with
    | none => exact ⟨_, rfl, counted'⟩
    | some data =>
      have present : c ∈ t.locallyGeneratedUncommitted := lookup_isSome.1 (by rw [found]; rfl)
      have absent := lookup_eq_none.2 (apart c present)
      simp only [myAssert, ensure_of absent, ok_bind]
      exact ⟨_, rfl, counted'⟩
  refine ⟨t', run, counted'', fun d mem mem' => ?_⟩
  obtain ⟨-, uncommitted, committed⟩ := commitStep_eq run
  obtain ⟨mem, ne⟩ := (uncommitted d).1 mem
  rcases (committed d).1 mem' with mem' | ⟨e, -⟩
  · exact apart d mem mem'
  · exact ne e

theorem removeCmd_total (counted : t.verificationKeyTable.Counted) (mem : c ∈ t.locallyGeneratedUncommitted) :
    ∃ t', t.removeCmd c = .ok t' ∧ t'.verificationKeyTable.Counted := by
  obtain ⟨table, vks, counted'⟩ := decrementVks_total counted [c]
  unfold removeCmd
  rw [vks, ok_bind, ensure_of mem]
  exact ⟨_, rfl, counted'⟩

theorem readdStep_total {slot current : ℕ} {uncommitted : A → Option IndexedPool.AccountView}
    (valid : Valid t.pool) (small : t.pool.size < 2 ^ 32) (counted : t.verificationKeyTable.Counted)
    (known : c ∈ t.locallyGeneratedUncommitted ∨ c ∈ t.locallyGeneratedCommitted) :
    ∃ t', t.readdStep slot current uncommitted c = .ok t' ∧ t'.verificationKeyTable.Counted := by
  unfold readdStep
  by_cases committed : c ∈ t.locallyGeneratedCommitted
  · exact ⟨t, if_pos committed, counted⟩
  rw [if_neg committed]
  obtain ⟨gaveUp, removed, counted'⟩ := removeCmd_total counted (known.resolve_right committed)
  by_cases cheap : t.hasSufficientFee c = false
  · exact ⟨gaveUp, by rw [if_pos cheap, removed], counted'⟩
  rw [if_neg cheap]
  cases uncommitted (feePayer c) with
  | none => exact ⟨gaveUp, removed, counted'⟩
  | some account =>
    obtain ⟨C, H, h⟩ := valid
    have length := h.queue_length_le (feePayer c)
    have ends : Ends (t.pool.addFromGossipExn slot current c account.nonce account.liquidBalance) _
        IndexedPool.Refused := h.addFromGossip_ends account.nonce (show _ < 2 ^ 32 by omega)
    dsimp only
    cases result : t.pool.addFromGossipExn slot current c account.nonce account.liquidBalance with
    | ok r =>
      obtain ⟨table, vks, counted''⟩ := incrementVks_total
        (show ({ t with pool := r.1 } : TransactionPool Cmd A Hash R Fp
          Vk).verificationKeyTable.Counted from counted) [c]
      exact ⟨_, vks, counted''⟩
    | error e =>
      rw [result] at ends
      obtain ⟨reason, rfl⟩ := ends
      exact ⟨gaveUp, removed, counted'⟩

theorem readd_total {d : BestTipChange Cmd A} : ∀ {todo : List Cmd}
    {t : TransactionPool Cmd A Hash R Fp Vk}, Valid t.pool →
    t.pool.size + todo.length < 2 ^ 32 → t.verificationKeyTable.Counted → todo.Nodup →
    (∀ c ∈ todo, c ∈ t.locallyGeneratedUncommitted ∨ c ∈ t.locallyGeneratedCommitted) →
    ∃ t', todo.foldlM (readdStep d.globalSlotSinceGenesis d.currentGlobalSlot d.uncommitted) t = .ok t' ∧
      Valid t'.pool ∧ t'.verificationKeyTable.Counted
  | [], t, valid, _, counted, _, _ => ⟨t, rfl, valid, counted⟩
  | cmd :: todo, t, valid, small, counted, nodup, known => by
    rw [length_cons] at small
    rw [nodup_cons] at nodup
    rw [forall_mem_cons] at known
    obtain ⟨t₁, first, counted₁⟩ : ∃ t₁, t.readdStep d.globalSlotSinceGenesis d.currentGlobalSlot
        d.uncommitted cmd = .ok t₁ ∧ t₁.verificationKeyTable.Counted :=
      readdStep_total valid (by omega) counted known.1
    obtain ⟨valid₁, size₁, -⟩ := readdStep_valid valid (by omega) first
    have known₁ : ∀ c ∈ todo, c ∈ t₁.locallyGeneratedUncommitted ∨ c ∈ t₁.locallyGeneratedCommitted := by
      intro c hc
      have ne : c ≠ cmd := fun e => nodup.1 (e ▸ hc)
      obtain ⟨committed, ⟨rfl, -⟩ | ⟨-, uncommitted⟩ | ⟨uncommitted, -⟩⟩ := readdStep_eq first
      · exact known.2 c hc
      · rw [committed, uncommitted]
        exact (known.2 c hc).imp_left fun mem => ⟨mem, ne⟩
      · rw [committed, uncommitted]
        exact known.2 c hc
    obtain ⟨t', rest, done⟩ := readd_total valid₁ (by omega) counted₁ nodup.2 known₁
    exact ⟨t', by rw [foldlM_cons, first, ok_bind, rest], done⟩

theorem expireStep_total (t : TransactionPool Cmd A Hash R Fp Vk) (c : Cmd)
    (counted : t.verificationKeyTable.Counted) :
    ∃ t', t.expireStep c = .ok t' ∧ t'.verificationKeyTable.Counted := by
  obtain ⟨table, vks, counted'⟩ := decrementVks_total counted [c]
  unfold expireStep
  rw [vks]
  exact ⟨_, rfl, counted'⟩

/-- The invariant of the pool, tables of local commands that are apart, and counted keys. -/
structure Ready (t : TransactionPool Cmd A Hash R Fp Vk) : Prop where
  valid : Valid t.pool
  apart : ∀ c ∈ t.locallyGeneratedUncommitted, c ∉ t.locallyGeneratedCommitted
  counted : t.verificationKeyTable.Counted

theorem backtrack_frame {d : BestTipChange Cmd A} {dropped : List Cmd}
    (apart : ∀ c ∈ t.locallyGeneratedUncommitted, c ∉ t.locallyGeneratedCommitted)
    (run : t.backtrack d = .ok (t', dropped)) :
    t'.verificationKeyTable = t.verificationKeyTable ∧
      ∀ c ∈ t'.locallyGeneratedUncommitted, c ∉ t'.locallyGeneratedCommitted := by
  let P : TransactionPool Cmd A Hash R Fp Vk × List Cmd → Prop := fun s =>
    s.1.verificationKeyTable = t.verificationKeyTable ∧
      ∀ c ∈ s.1.locallyGeneratedUncommitted, c ∉ s.1.locallyGeneratedCommitted
  have all : P (t', dropped) := by
    refine foldlM_induction (fun cmd _ s s' before step => ?_) (show P (t, []) from ⟨rfl, apart⟩) run
    obtain ⟨added, pool, ds, -, -, rfl⟩ := backtrackStep_eq step
    refine ⟨?_, uncommit_apart before.2 cmd⟩
    unfold uncommit
    split <;> exact before.1
  exact all

theorem getAccount_ne_none {accountIds : A → Bool} {accounts : A → Option IndexedPool.AccountView} {id : A}
    (required : accountIds id = true) : getAccount accountIds accounts id ≠ none := by
  unfold getAccount
  rw [if_pos required]
  split <;> simp

/-- The rolled back commands are accepted: different senders, each in front of its queue. -/
structure AllAccepted (d : BestTipChange Cmd A) (p : IndexedPool Cmd A Hash R) : Prop where
  senders : (d.rolledBack.map feePayer).Nodup
  accepts : ∀ c ∈ d.rolledBack, Accepts p c

variable (it : Iteration Cmd A Hash R) {d : BestTipChange Cmd A}

theorem moveToBestTip_total (ready : Ready t) (noEnd : t.pool.slotTxEnd = none)
    (small : t.pool.size + d.rolledBack.length < 2 ^ 32)
    (alive : ∀ c ∈ d.rolledBack, d.globalSlotSinceGenesis ≤ validUntil c) (accepted : AllAccepted d t.pool) :
    ∃ m, t.moveToBestTip it d = .ok m ∧ m.pool.verificationKeyTable.Counted ∧ m.locallyGeneratedDropped.Nodup ∧
      ∀ c ∈ m.locallyGeneratedDropped,
        c ∈ m.pool.locallyGeneratedUncommitted ∨ c ∈ m.pool.locallyGeneratedCommitted := by
  obtain ⟨table, inc, counted⟩ := incrementVks_total ready.counted d.committed
  obtain ⟨table₀, dec, counted₀⟩ := decrementVks_total
    (t := { t with verificationKeyTable := table }) counted d.rolledBack
  let t₀ : TransactionPool Cmd A Hash R Fp Vk := { t with verificationKeyTable := table₀ }
  obtain ⟨t₁, dropped, back, nodup⟩ : ∃ t₁ dropped, t₀.backtrack d = .ok (t₁, dropped) ∧ dropped.Nodup :=
    backtrack_total ready.valid noEnd small accepted.senders alive accepted.accepts nodup_nil (by simp)
  obtain ⟨vks, apart₁⟩ := backtrack_frame (t := t₀) ready.apart back
  obtain ⟨⟨C, H, h⟩, -⟩ := backtrack_valid ready.valid small back
  obtain ⟨table₂, dec₂, counted₂⟩ := decrementVks_total (by rw [vks]; exact counted₀) dropped
  have ends := h.revalidate d.accountIds (getAccount d.accountIds d.accounts) (it.senders_perm t₁.pool)
  cases revalidated : t₁.pool.revalidate d.accountIds (getAccount d.accountIds d.accounts)
      (it.senders t₁.pool) with
  | error e =>
    rw [revalidated] at ends
    obtain ⟨-, id, required, missing⟩ := ends
    exact absurd missing (getAccount_ne_none required)
  | ok result =>
    obtain ⟨pool, stale⟩ := result
    let t₂ : TransactionPool Cmd A Hash R Fp Vk :=
      { t₁ with pool := pool, verificationKeyTable := table₂ }
    obtain ⟨t₃, commits, counted₃, -⟩ := foldlM_total
      (P := fun t : TransactionPool Cmd A Hash R Fp Vk => t.verificationKeyTable.Counted ∧
        ∀ c ∈ t.locallyGeneratedUncommitted, c ∉ t.locallyGeneratedCommitted)
      (fun t c keeps => commitStep_total keeps.1 keeps.2 c)
      (stale.filter fun c => hash c ∈ d.committed.map hash) (s := t₂) ⟨counted₂, apart₁⟩
    refine ⟨⟨t₃, stale.filter fun c => !decide (hash c ∈ d.committed.map hash),
      dropped.filter fun c => c ∈ t₁.locallyGeneratedUncommitted⟩, ?_, counted₃, nodup.filter _, fun c hc => ?_⟩
    · unfold moveToBestTip
      rw [inc, ok_bind, dec, ok_bind, back, ok_bind]
      dsimp only
      rw [dec₂, ok_bind]
      rw [revalidated, ok_bind]
      rw [commits]
      rfl
    · have mem : c ∈ t₂.locallyGeneratedUncommitted := by simpa using (mem_filter.1 hc).2
      obtain ⟨-, uncommitted, committed⟩ := commit_eq commits
      rw [uncommitted, committed]
      tauto

/-- **Once the rolled back commands are accepted, `handle_transition_frontier_diff` does not
    fail.** -/
theorem handle_total (ready : Ready t) (noEnd : t.pool.slotTxEnd = none)
    (small : t.pool.size + d.rolledBack.length < 2 ^ 32)
    (alive : ∀ c ∈ d.rolledBack, d.globalSlotSinceGenesis ≤ validUntil c) (accepted : AllAccepted d t.pool) :
    ∃ t', t.handleTransitionFrontierDiff it d = .ok t' := by
  obtain ⟨m, moved, counted, nodup, known⟩ := moveToBestTip_total it ready noEnd small alive accepted
  obtain ⟨valid, smallM⟩ := moveToBestTip_valid ready.valid small moved
  obtain ⟨t₂, readded, ⟨C, H, h⟩, counted₂⟩ := readd_total valid smallM counted nodup known
  obtain ⟨pool, expired, -, -, removed, -⟩ := h.removeExpired (it.expired t₂.pool d.globalSlotSinceGenesis)
  obtain ⟨t', expire, -⟩ := foldlM_total
    (P := fun t : TransactionPool Cmd A Hash R Fp Vk => t.verificationKeyTable.Counted)
    expireStep_total expired (s := { t₂ with pool := pool }) counted₂
  refine ⟨t', ?_⟩
  unfold handleTransitionFrontierDiff
  rw [moved, ok_bind]
  dsimp only
  rw [readded, ok_bind, removed]
  exact expire

/-! ## Reorganisations -/

theorem chain_order {l : List Cmd} (consecutive : ∀ s, (l.filter fun c => feePayer c = s).IsChain Follows)
    (short : l.length < 2 ^ 32) :
    l.Pairwise fun a b => feePayer a = feePayer b → expectedTargetNonce b ≠ applicableAtNonce a := by
  rw [pairwise_iff_forall_sublist]
  intro a b sub same
  have sub' : [a, b].Sublist (l.filter fun c => feePayer c = feePayer b) := by
    have filtered := sub.filter fun c => feePayer c = feePayer b
    simpa [same] using filtered
  have chain := consecutive (feePayer b)
  have length := length_filter_le (fun c => decide (feePayer c = feePayer b)) l
  generalize (l.filter fun c => feePayer c = feePayer b) = q at sub' chain length
  -- positions in the sender's commands
  have order : q.Pairwise fun a b => expectedTargetNonce b ≠ applicableAtNonce a := by
    rw [pairwise_iff_getElem]
    intro i j hi hj lt eq
    have at_i := nonce_getElem chain i hi
    have at_j := nonce_getElem chain j hj
    rw [get_eq_getElem] at at_i at_j
    rw [expectedTargetNonce, succNonce, at_i, at_j] at eq
    omega
  exact pairwise_iff_forall_sublist.1 order sub'

/-- **What a reorganisation hands to the pool**: the diff of two best chains with a common block
    and nonces in sequence, and a pool whose queues go on after the rolled back commands, with
    no expiry. -/
structure Reorganisation {Block : Type} [DecidableEq Block] (commands : Block → List Cmd)
    (oldChain newChain : List Block) (d : BestTipChange Cmd A)
    (t : TransactionPool Cmd A Hash R Fp Vk) : Prop where
  diff : maybeMakeChainDiff commands oldChain newChain = .ok (some d.toBestTipDiff)
  shared : ∃ block ∈ oldChain, block ∈ newChain
  old_consecutive : ∀ s, ((oldChain.flatMap commands).filter fun c => feePayer c = s).IsChain Follows
  new_consecutive : ∀ s, ((newChain.flatMap commands).filter fun c => feePayer c = s).IsChain Follows
  ready : Ready t
  queues : ∀ s last, (d.removedCommands.filter fun c => feePayer c = s).getLast? = some last →
    ∀ first ∈ (t.pool.queueOf s).head?, applicableAtNonce first = expectedTargetNonce last
  no_expiry : ∀ c ∈ d.removedCommands, d.globalSlotSinceGenesis ≤ validUntil c
  no_end : t.pool.slotTxEnd = none

/-- One rolled back command each, the last of its commands on the old chain if it has a queue,
    and the amounts do not overflow. -/
structure OnePerSender (d : BestTipChange Cmd A) (p : IndexedPool Cmd A Hash R) : Prop where
  senders : (d.rolledBack.map feePayer).Nodup
  last : ∀ c ∈ d.rolledBack, p.queueOf (feePayer c) ≠ [] →
    (d.removedCommands.filter fun e => feePayer e = feePayer c).getLast? = some c
  fits : ∀ c ∈ d.rolledBack, cost c + totalCost (p.queueOf (feePayer c)) < 2 ^ 64

section
variable {Block : Type} [DecidableEq Block] {commands : Block → List Cmd} {oldChain newChain : List Block}

theorem Reorganisation.removed_consecutive (reorg : Reorganisation commands oldChain newChain d t)
    (s : A) : (d.removedCommands.filter fun c => feePayer c = s).IsChain Follows := by
  obtain ⟨rolledBack, ⟨kept, parts⟩, removed⟩ := maybeMakeChainDiff_removed reorg.diff
  have chain := reorg.old_consecutive s
  rw [← parts, flatMap_append, filter_append] at chain
  rw [removed]
  exact chain.right_of_append

theorem Reorganisation.allAccepted (reorg : Reorganisation commands oldChain newChain d t)
    (one : OnePerSender d t.pool) : AllAccepted d t.pool := by
  refine ⟨one.senders, fun c hc => ⟨one.fits c hc, fun first hfirst => ?_⟩⟩
  have nonempty : t.pool.queueOf (feePayer c) ≠ [] := by
    intro empty
    rw [empty] at hfirst
    cases hfirst
  exact (reorg.queues (feePayer c) c (one.last c hc nonempty) first hfirst).symm

theorem Reorganisation.onePerSender (reorg : Reorganisation commands oldChain newChain d t)
    (short : d.removedCommands.length < 2 ^ 32) (accepted : AllAccepted d t.pool) : OnePerSender d t.pool := by
  refine ⟨accepted.senders, fun c hc nonempty => ?_, fun c hc => (accepted.accepts c hc).1⟩
  have removed : c ∈ d.removedCommands.filter fun e => feePayer e = feePayer c := by
    rw [mem_filter]
    exact ⟨(mem_filter.1 hc).1, by simp⟩
  have starts := reorg.queues (feePayer c)
  have chain := reorg.removed_consecutive (feePayer c)
  have length := length_filter_le (fun e => decide (feePayer e = feePayer c)) d.removedCommands
  generalize (d.removedCommands.filter fun e => feePayer e = feePayer c) = q at removed starts chain length
  obtain ⟨first, hfirst⟩ : ∃ first, (t.pool.queueOf (feePayer c)).head? = some first := by
    cases queue : t.pool.queueOf (feePayer c) with
    | nil => exact absurd queue nonempty
    | cons first rest => exact ⟨first, rfl⟩
  have qne : q ≠ [] := ne_nil_of_mem removed
  have hlast : q.getLast? = some (q.getLast qne) := List.getLast?_eq_getLast_of_ne_nil qne
  -- both `c` and the last command come right before the queue
  have same : expectedTargetNonce c = expectedTargetNonce (q.getLast qne) :=
    ((accepted.accepts c hc).2 first hfirst).trans (starts _ hlast first hfirst)
  obtain ⟨⟨i, hi⟩, rfl⟩ := mem_iff_get.1 removed
  have lastIndex : q.get ⟨q.length - 1, by omega⟩ = q.getLast qne := by
    rw [getLast_eq_getElem]
    rfl
  rw [← lastIndex, expectedTargetNonce, expectedTargetNonce, succNonce, succNonce] at same
  have nonces : applicableAtNonce (q.get ⟨i, hi⟩) = applicableAtNonce (q.get ⟨q.length - 1, by omega⟩) := by
    have lt := PoolCommand.applicableAtNonce_lt (q.get ⟨i, hi⟩)
    have lt' := PoolCommand.applicableAtNonce_lt (q.get ⟨q.length - 1, by omega⟩)
    omega
  have index := eq_of_nonce_eq chain (by omega) hi (by omega) nonces
  rw [hlast, ← lastIndex]
  subst index
  rfl

/-- **When a reorganisation does not fail**: when each sender has one rolled back command.  For
    a pool with room for all rolled back commands this is the only case. -/
theorem reorg_succeeds_iff (it : Iteration Cmd A Hash R) (commands : Block → List Cmd)
    (oldChain newChain : List Block) (d : BestTipChange Cmd A) (t : TransactionPool Cmd A Hash R Fp Vk)
    (reorg : Reorganisation commands oldChain newChain d t)
    (small : t.pool.size + d.removedCommands.length < 2 ^ 32) :
    (OnePerSender d t.pool → ∃ t', t.handleTransitionFrontierDiff it d = .ok t') ∧
      (t.pool.size + d.rolledBack.length ≤ t.poolMaxSize →
        ((∃ t', t.handleTransitionFrontierDiff it d = .ok t') ↔ OnePerSender d t.pool)) := by
  have sub : d.rolledBack.Sublist d.removedCommands := filter_sublist
  have fewer := sub.length_le
  have alive : ∀ c ∈ d.rolledBack, d.globalSlotSinceGenesis ≤ validUntil c := fun c hc =>
    reorg.no_expiry c (sub.subset hc)
  have sufficient : OnePerSender d t.pool → ∃ t', t.handleTransitionFrontierDiff it d = .ok t' := fun one =>
    handle_total it reorg.ready reorg.no_end (by omega) alive (reorg.allAccepted one)
  refine ⟨sufficient, fun room => ⟨?_, sufficient⟩⟩
  rintro ⟨t', run⟩
  obtain ⟨m, -, -, -, moved, -⟩ := handleTransitionFrontierDiff_eq run
  obtain ⟨t₀, t₁, -, dropped, -, -, pool₀, -, -, max₀, back, -⟩ := moveToBestTip_eq moved
  have order := (chain_order reorg.removed_consecutive (by omega)).sublist sub
  have accepted := backtrack_accepts (by rw [pool₀]; exact reorg.ready.valid) (by rw [pool₀]; exact reorg.no_end)
    (by rw [pool₀]; omega) (by rw [pool₀]; omega) alive order back
  rw [pool₀] at accepted
  exact reorg.onePerSender (by omega) ⟨accepted.1, accepted.2⟩

end

/-! ## Two commands of one sender -/

open IndexedPool (NonceCmd)

instance : VkCommand NonceCmd Unit ℕ ℕ where
  extractVks _ := []
  vkHash := id

def emptyPool : TransactionPool NonceCmd Unit ℕ ℕ ℕ ℕ where
  pool := IndexedPool.new
  locallyGeneratedUncommitted := ∅
  locallyGeneratedCommitted := ∅
  poolMaxSize := 3000
  verificationKeyTable := .empty

theorem emptyPool_ready : Ready emptyPool where
  valid := ⟨∅, ∅, .new⟩
  apart c mem := absurd mem (notMem_empty c)
  counted _ _ _ found := nomatch found

/-- The block `1` with the given commands, and two blocks without commands. -/
def blockCommands (cmds : List NonceCmd) : Fin 3 → List NonceCmd
  | 1 => cmds
  | _ => []

def blockReplaced (cmds : List NonceCmd) : BestTipChange NonceCmd Unit where
  newCommands := []
  removedCommands := cmds
  globalSlotSinceGenesis := 0
  currentGlobalSlot := 0
  accountIds _ := true
  accounts _ := none
  uncommitted _ := none

theorem blockReplaced_reorganisation {cmds : List NonceCmd} (chain : cmds.IsChain Follows) (ne : cmds ≠ []) :
    Reorganisation (blockCommands cmds) [0, 1] [0, 2] (blockReplaced cmds) emptyPool where
  diff := by
    have diff : maybeMakeChainDiff (blockCommands cmds) [0, 1] [0, 2] =
        .ok (collectDiff (blockCommands cmds) [1] [2]) := rfl
    rw [diff, collectDiff]
    simp [blockCommands, ne, blockReplaced]
  shared := ⟨0, by simp, by simp⟩
  old_consecutive s := by simpa [blockCommands, PoolCommand.feePayer] using chain
  new_consecutive s := by simp [blockCommands]
  ready := emptyPool_ready
  queues s last _ first hfirst := nomatch hfirst
  no_expiry _ _ := Nat.zero_le _
  no_end := rfl

/-- **Two rolled back commands of one sender**: the second one is not accepted. -/
theorem reorg_refuses_second :
    Reorganisation (blockCommands [0, 1]) [0, 1] [0, 2] (blockReplaced [0, 1]) emptyPool ∧
      emptyPool.handleTransitionFrontierDiff .asStored (blockReplaced [0, 1]) =
        .error (.err (.backtrackNonceMismatch 2 0)) :=
  ⟨blockReplaced_reorganisation (.cons_cons rfl (.singleton _)) (by simp), rfl⟩

/-- One rolled back command. -/
theorem reorg_succeeds_one :
    Reorganisation (blockCommands [5]) [0, 1] [0, 2] (blockReplaced [5]) emptyPool ∧
      ∃ t', emptyPool.handleTransitionFrontierDiff .asStored (blockReplaced [5]) = .ok t' := by
  have reorg := blockReplaced_reorganisation (.singleton (5 : NonceCmd)) (by simp)
  have one : OnePerSender (blockReplaced [5]) emptyPool.pool :=
    ⟨by decide, fun c _ nonempty => absurd rfl nonempty, fun _ _ => Nat.two_pow_pos 64⟩
  exact ⟨reorg, (reorg_succeeds_iff .asStored _ _ _ _ _ reorg (by decide)).1 one⟩

end TransactionPool
end MinaRust.TransactionPool
