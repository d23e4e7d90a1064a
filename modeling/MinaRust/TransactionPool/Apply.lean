/-
  A verified diff applied to the transaction pool, and the pool at a new best tip
  (`TransactionPool::apply` and `on_new_best_tip` of `transaction_pool.rs`).

  An addition does not always report every command that it takes out of the pool: the first
  of the replaced queue's commands that does not fit any more goes unreported (`Reports`).
-/
import MinaRust.TransactionPool.LocallyGenerated

set_option linter.unusedSectionVars false
set_option linter.dupNamespace false

namespace MinaRust.TransactionPool

open List

inductive DiffError where
  | insufficientReplaceFee
  | duplicate
  | invalidNonce
  | insufficientFunds
  | overflow
  | badToken
  | unwantedFeeToken
  | expired
  | overloaded
  | feePayerAccountNotFound
  | feePayerNotPermittedToSend
  | afterSlotTxEnd
  | backtrackNonceMismatch
  | invalidCurrencyConsumed
  | custom
  deriving DecidableEq, Repr

def DiffError.groundsForDiffRejection : DiffError → Bool
  | .overflow | .badToken | .unwantedFeeToken => true
  | _ => false

def CommandError.toDiffError : CommandError → DiffError
  | .invalidNonce .. => .invalidNonce
  | .insufficientFunds .. => .insufficientFunds
  | .insufficientReplaceFee .. => .insufficientReplaceFee
  | .overflow => .overflow
  | .expired .. => .expired
  | .afterSlotTxEnd => .afterSlotTxEnd
  | .backtrackNonceMismatch .. => .backtrackNonceMismatch
  | .invalidCurrencyConsumed => .invalidCurrencyConsumed
  | .accountNotFound | .assertFailed => .custom

inductive ApplyDecision where
  | accept
  | reject
  deriving DecidableEq, Repr

inductive ApplyStop where
  /-- "Fee payer not found" -/
  | feePayerNotFound
  | stop (s : Stop)
  deriving DecidableEq, Repr

def MAX_PER_15_SECONDS : ℕ := 10

structure BatchedPool (Cmd A Hash R Fp Vk : Type) extends
    TransactionPool Cmd A Hash R Fp Vk where
  remainingInBatch : ℕ
  currentBatch : ℕ

structure VerifiedDiff (Cmd A : Type) where
  time : ℕ
  /-- `Timestamp::global_now()` -/
  now : ℕ
  globalSlotSinceGenesis : ℕ
  currentGlobalSlot : ℕ
  list : List Cmd
  accounts : A → Option IndexedPool.AccountView
  isSenderLocal : Bool

/-- An added command with the commands dropped for it, or a refused one. -/
abbrev AddResult (Cmd : Type) := Except (Cmd × DiffError) (Cmd × List Cmd)

namespace AddResult
variable {Cmd : Type}

def added : AddResult Cmd → Option Cmd
  | .ok (cmd, _) => some cmd
  | .error _ => none

def dropped : AddResult Cmd → List Cmd
  | .ok (_, dropped) => dropped
  | .error _ => []

def rejected : AddResult Cmd → Option (Cmd × DiffError)
  | .ok _ => none
  | .error r => some r

end AddResult

structure Applied (Cmd Hash : Type) where
  decision : ApplyDecision
  accepted : List Cmd
  rejected : List (Cmd × DiffError)
  dropped : List Hash

variable {Cmd A Hash R Fp Vk : Type} [PoolCommand Cmd A Hash R]
  [VkCommand Cmd A Fp Vk] [DecidableEq Cmd] [DecidableEq A] [LinearOrder Hash]
  [LinearOrder R] [DecidableEq Fp]

namespace VerifiedDiff

variable (d : VerifiedDiff Cmd A) (p : IndexedPool Cmd A Hash R)

def checkCommand (cmd : Cmd) : Except DiffError Unit :=
  if p.member cmd then .error .duplicate
  else match d.accounts (feePayer cmd) with
    | none => .error .feePayerAccountNotFound
    | some account => if account.permitted then .ok () else .error .feePayerNotPermittedToSend

def addStep (s : IndexedPool Cmd A Hash R × List (AddResult Cmd)) (cmd : Cmd) :
    Except ApplyStop (IndexedPool Cmd A Hash R × List (AddResult Cmd)) := do
  let account ← okOr .feePayerNotFound (d.accounts (feePayer cmd))
  match d.checkCommand s.1 cmd with
  | .error e => return (s.1, s.2 ++ [.error (cmd, e)])
  | .ok () =>
    match s.1.addFromGossipExn d.globalSlotSinceGenesis d.currentGlobalSlot cmd account.nonce
      account.liquidBalance with
    | .ok (p, cmd, dropped) => return (p, s.2 ++ [.ok (cmd, dropped)])
    | .error (.err e) => return (s.1, s.2 ++ [.error (cmd, e.toDiffError)])
    | .error (.panic e) => .error (.stop (.panic e))

def addAll : Except ApplyStop (IndexedPool Cmd A Hash R × List (AddResult Cmd)) :=
  d.list.foldlM d.addStep (p, [])

end VerifiedDiff

namespace BatchedPool

def registerLocallyGenerated (time now : ℕ) (t : BatchedPool Cmd A Hash R Fp Vk) (cmd : Cmd) :
    BatchedPool Cmd A Hash R Fp Vk :=
  match t.locallyGeneratedUncommitted.lookup cmd with
  | some g => { t with
      locallyGeneratedUncommitted := t.locallyGeneratedUncommitted.insert cmd { g with time := now } }
  | none =>
    if 0 < t.remainingInBatch then { t with
      remainingInBatch := t.remainingInBatch - 1
      locallyGeneratedUncommitted := t.locallyGeneratedUncommitted.insert cmd ⟨time, t.currentBatch⟩ }
    else { t with
      remainingInBatch := MAX_PER_15_SECONDS - 1
      currentBatch := t.currentBatch + 1
      locallyGeneratedUncommitted := t.locallyGeneratedUncommitted.insert cmd ⟨time, t.currentBatch + 1⟩ }

/-- `apply` and `unsafe_apply`.  The set of dropped hashes is a list here. -/
def apply (d : VerifiedDiff Cmd A) (t : BatchedPool Cmd A Hash R Fp Vk) :
    Except ApplyStop (BatchedPool Cmd A Hash R Fp Vk × Applied Cmd Hash) := do
  let (pool, addResults) ← d.addAll t.pool
  let addedCmds := addResults.filterMap AddResult.added
  let droppedForAdd := addResults.flatMap AddResult.dropped
  let (pool, droppedForSize) ← (TransactionPool.dropUntilBelowMaxSize t.poolMaxSize pool).mapError .stop
  let allDroppedCmds := droppedForAdd ++ droppedForSize
  let table ← ({ t.toTransactionPool with pool := pool }.incrementVks addedCmds).mapError .stop
  let table ← (table.decrementVks allDroppedCmds).mapError .stop
  let t := { t with toTransactionPool := table }
  let allDroppedCmdHashes := allDroppedCmds.map hash
  let accepted := addedCmds.filter fun cmd => !allDroppedCmdHashes.contains (hash cmd)
  let t := if d.isSenderLocal then accepted.foldl (registerLocallyGenerated d.time d.now) t else t
  let rejected := addResults.filterMap AddResult.rejected
  let decision := if rejected.any fun r => r.2.groundsForDiffRejection then .reject else .accept
  return (t, ⟨decision, accepted, rejected, allDroppedCmdHashes⟩)

end BatchedPool

namespace TransactionPool

def dropLocal (t : TransactionPool Cmd A Hash R Fp Vk) (cmd : Cmd) :
    Except Stop (TransactionPool Cmd A Hash R Fp Vk) := do
  ensure (.panic .assertion) (¬ (cmd ∈ t.locallyGeneratedCommitted ∧ cmd ∈ t.locallyGeneratedUncommitted))
  return { t with
    locallyGeneratedCommitted := t.locallyGeneratedCommitted.erase cmd
    locallyGeneratedUncommitted := t.locallyGeneratedUncommitted.erase cmd }

def onNewBestTip (it : Iteration Cmd A Hash R) (accounts : A → Option IndexedPool.AccountView)
    (t : TransactionPool Cmd A Hash R Fp Vk) :
    Except Stop (TransactionPool Cmd A Hash R Fp Vk × List Cmd) := do
  let (pool, dropped) ← t.pool.revalidate (fun _ => true)
    (fun id => some ((accounts id).getD AccountView.empty)) (it.senders t.pool)
  let t ← dropped.foldlM dropLocal { t with pool := pool }
  return (t, dropped)

theorem onNewBestTip_drops {it : Iteration Cmd A Hash R} {accounts : A → Option IndexedPool.AccountView}
    {t t' : TransactionPool Cmd A Hash R Fp Vk} {dropped : List Cmd}
    (run : t.onNewBestTip it accounts = .ok (t', dropped)) : IndexedPool.Drops t.pool t'.pool dropped := by
  obtain ⟨⟨pool, ds⟩, revalidated, run⟩ := bind_eq_ok.1 run
  obtain ⟨t₁, loop, run⟩ := bind_eq_ok.1 run
  cases run
  have same : t'.pool = pool := by
    refine foldlM_induction (P := fun t => t.pool = pool) (fun cmd _ t t' before step => ?_) rfl loop
    obtain ⟨-, -, step⟩ := bind_eq_ok.1 step
    cases step
    exact before
  rw [same]
  exact IndexedPool.revalidate_drops revalidated

end TransactionPool

/-! ## What `apply` does to the pool -/

namespace BatchedPool

variable {d : VerifiedDiff Cmd A} {t t' : BatchedPool Cmd A Hash R Fp Vk}
  {r : Applied Cmd Hash}

theorem registerLocallyGenerated_pool (time now : ℕ) (t : BatchedPool Cmd A Hash R Fp Vk)
    (cmd : Cmd) : (t.registerLocallyGenerated time now cmd).pool = t.pool := by
  unfold registerLocallyGenerated
  split
  · rfl
  · split <;> rfl

theorem foldl_register_pool (time now : ℕ) : ∀ (cmds : List Cmd)
    (t : BatchedPool Cmd A Hash R Fp Vk),
    (cmds.foldl (registerLocallyGenerated time now) t).pool = t.pool
  | [], _ => rfl
  | cmd :: cmds, t =>
    (foldl_register_pool time now cmds _).trans (registerLocallyGenerated_pool time now t cmd)

theorem mapError_eq_ok {ε ε' α : Type} {f : ε → ε'} {x : Except ε α} {a : α} :
    x.mapError f = .ok a ↔ x = .ok a := by
  cases x <;> simp [Except.mapError]

theorem apply_spec (run : t.apply d = .ok (t', r)) : ∃ pool rs ds, d.addAll t.pool = .ok (pool, rs) ∧
    TransactionPool.dropUntilBelowMaxSize t.poolMaxSize pool = .ok (t'.pool, ds) ∧
    r.dropped = (rs.flatMap AddResult.dropped ++ ds).map hash ∧
    r.accepted = (rs.filterMap AddResult.added).filter fun cmd => !r.dropped.contains (hash cmd) := by
  obtain ⟨⟨pool, rs⟩, adds, run⟩ := bind_eq_ok.1 run
  obtain ⟨⟨pool', ds⟩, trim, run⟩ := bind_eq_ok.1 run
  obtain ⟨t₁, inc, run⟩ := bind_eq_ok.1 run
  obtain ⟨t₂, dec, run⟩ := bind_eq_ok.1 run
  obtain ⟨table₁, rfl⟩ := TransactionPool.incrementVks_same (mapError_eq_ok.1 inc)
  obtain ⟨table₂, rfl⟩ := TransactionPool.decrementVks_same (mapError_eq_ok.1 dec)
  cases run
  refine ⟨pool, rs, ds, adds, ?_, rfl, rfl⟩
  rw [mapError_eq_ok.1 trim]
  split
  · rw [foldl_register_pool]
  · rfl

end BatchedPool

/-! ## Additions that report -/

namespace IndexedPool

theorem addFromGossipExnImpl_added {slotTxEnd : Option ℕ} {slot current balance : ℕ} :
    ∀ (depth : ℕ) {c : Cmd} {nonce : ℕ} {b : SenderState Cmd A} {us : List (Update Cmd)}
      {result : SenderState Cmd A × List (Update Cmd) × Cmd × List Cmd},
      addFromGossipExnImpl slotTxEnd slot current balance depth c nonce b us = .ok result →
      result.2.2.1 = c
  | 0, _, _, _, _, _, run => nomatch run
  | depth + 1, c, nonce, ⟨s, none⟩, us, result, run => by
    iterate 5 obtain ⟨_, -, run⟩ := bind_eq_ok.1 run
    cases run
    rfl
  | depth + 1, c, nonce, ⟨s, some (q, r)⟩, us, result, run => by
    iterate 6 obtain ⟨_, -, run⟩ := bind_eq_ok.1 run
    dsimp only at run
    split at run
    · iterate 2 obtain ⟨_, -, run⟩ := bind_eq_ok.1 run
      cases run
      rfl
    · split at run
      · iterate 7 obtain ⟨_, -, run⟩ := bind_eq_ok.1 run
        obtain ⟨⟨b₁, us₁, added, ds⟩, inner, run⟩ := bind_eq_ok.1 run
        iterate 5 obtain ⟨_, -, run⟩ := bind_eq_ok.1 run
        cases run
        have known := addFromGossipExnImpl_added depth inner
        exact known
      · cases run

theorem addFromGossipExn_added {p p' : IndexedPool Cmd A Hash R}
    {slot current nonce balance : ℕ} {c added : Cmd} {dropped : List Cmd}
    (run : p.addFromGossipExn slot current c nonce balance = .ok (p', added, dropped)) : added = c := by
  obtain ⟨⟨b, us, _, _⟩, impl, run⟩ := bind_eq_ok.1 run
  obtain ⟨p₁, -, run⟩ := bind_eq_ok.1 run
  cases run
  exact addFromGossipExnImpl_added _ impl

/-- **An addition reports every command that it takes out of the pool.** -/
def Reports (p : IndexedPool Cmd A Hash R) (slot current : ℕ) (c : Cmd) (account : AccountView) : Prop :=
  ∀ p' added dropped, p.addFromGossipExn slot current c account.nonce account.liquidBalance =
    .ok (p', added, dropped) → ∀ e, p.member e → p'.member e ∨ e ∈ dropped

end IndexedPool

namespace VerifiedDiff

variable {d : VerifiedDiff Cmd A} {p p' : IndexedPool Cmd A Hash R}
  {rs rs' : List (AddResult Cmd)} {cmd : Cmd}

/-- Every addition of the call reports. -/
def Reports (d : VerifiedDiff Cmd A) (p : IndexedPool Cmd A Hash R) : Prop :=
  ∀ before cmd after, d.list = before ++ cmd :: after →
    ∀ p' rs account, before.foldlM d.addStep (p, []) = .ok (p', rs) →
      d.accounts (feePayer cmd) = some account →
      p'.Reports d.globalSlotSinceGenesis d.currentGlobalSlot cmd account

theorem addStep_cases (run : d.addStep (p, rs) cmd = .ok (p', rs')) : ∃ account,
    d.accounts (feePayer cmd) = some account ∧
    ((p' = p ∧ ∃ e, rs' = rs ++ [.error (cmd, e)]) ∨
      ∃ dropped, ¬ p.member cmd ∧ rs' = rs ++ [.ok (cmd, dropped)] ∧
        p.addFromGossipExn d.globalSlotSinceGenesis d.currentGlobalSlot cmd account.nonce
          account.liquidBalance = .ok (p', cmd, dropped)) := by
  obtain ⟨account, found, run⟩ := bind_eq_ok.1 run
  refine ⟨account, okOr_eq_ok.1 found, ?_⟩
  cases checked : d.checkCommand p cmd with
  | error e =>
    rw [checked] at run
    cases run
    exact .inl ⟨rfl, e, rfl⟩
  | ok =>
    have absent : ¬ p.member cmd := by
      intro mem
      unfold checkCommand at checked
      rw [if_pos mem] at checked
      cases checked
    rw [checked] at run
    dsimp only at run
    split at run
    · next p₁ added dropped add =>
      cases run
      obtain rfl := IndexedPool.addFromGossipExn_added add
      exact .inr ⟨dropped, absent, rfl, add⟩
    · next e _ =>
      cases run
      exact .inl ⟨rfl, _, rfl⟩
    · cases run

/-- Nothing has left the pool `p₀` but what is reported, and a command that was there before is
    added again only after it has been reported. -/
structure Tracked (p₀ p : IndexedPool Cmd A Hash R) (rs : List (AddResult Cmd)) : Prop where
  old : ∀ c, p₀.member c → p.member c ∨ c ∈ rs.flatMap AddResult.dropped
  added : ∀ c ∈ rs.filterMap AddResult.added, p.member c ∨ c ∈ rs.flatMap AddResult.dropped
  new : ∀ c ∈ rs.filterMap AddResult.added, p₀.member c → c ∈ rs.flatMap AddResult.dropped
  twice : ∀ c, 2 ≤ (rs.filterMap AddResult.added).count c → c ∈ rs.flatMap AddResult.dropped

theorem Tracked.step {p₀ : IndexedPool Cmd A Hash R} (h : Tracked p₀ p rs)
    (reports : ∀ account, d.accounts (feePayer cmd) = some account → p.Reports d.globalSlotSinceGenesis d.currentGlobalSlot cmd account)
    (run : d.addStep (p, rs) cmd = .ok (p', rs')) : Tracked p₀ p' rs' := by
  obtain ⟨account, found, ⟨rfl, e, rfl⟩ | ⟨dropped, absent, rfl, add⟩⟩ := addStep_cases run
  · have adds : (rs ++ [Except.error (cmd, e)]).filterMap AddResult.added = rs.filterMap AddResult.added := by
      simp [AddResult.added]
    have drops : (rs ++ [Except.error (cmd, e)]).flatMap AddResult.dropped = rs.flatMap AddResult.dropped := by
      simp [AddResult.dropped]
    refine ⟨?_, ?_, ?_, ?_⟩
    all_goals rw [drops]
    · exact h.old
    all_goals rw [adds]
    · exact h.added
    · exact h.new
    · exact h.twice
  · have adds : (rs ++ [Except.ok (cmd, dropped)]).filterMap AddResult.added =
        rs.filterMap AddResult.added ++ [cmd] := by
      simp [AddResult.added]
    have drops : ∀ c, c ∈ (rs ++ [Except.ok (cmd, dropped)]).flatMap AddResult.dropped ↔
        c ∈ rs.flatMap AddResult.dropped ∨ c ∈ dropped := by
      simp [AddResult.dropped]
    have stays : ∀ c, p.member c ∨ c ∈ rs.flatMap AddResult.dropped →
        p'.member c ∨ c ∈ (rs ++ [Except.ok (cmd, dropped)]).flatMap AddResult.dropped := by
      intro c before
      rw [drops]
      rcases before with mem | gone
      · exact (reports account found p' cmd dropped add c mem).imp_right .inr
      · exact .inr (.inl gone)
    refine ⟨fun c mem => stays c (h.old c mem), ?_, ?_, ?_⟩
    · intro c mem
      rw [adds, mem_append, mem_singleton] at mem
      rcases mem with mem | rfl
      · exact stays c (h.added c mem)
      · exact .inl (IndexedPool.addFromGossipExn_member add)
    · intro c mem before
      rw [drops]
      rw [adds, mem_append, mem_singleton] at mem
      rcases mem with mem | rfl
      · exact .inl (h.new c mem before)
      · exact .inl ((h.old c before).resolve_left absent)
    · intro c many
      rw [drops]
      rw [adds, count_append] at many
      by_cases here : c = cmd
      · -- the command was added before, and is not there any more
        subst here
        rw [count_singleton_self] at many
        have mem : c ∈ rs.filterMap AddResult.added := count_pos_iff.1 (by omega)
        exact .inl ((h.added c mem).resolve_left absent)
      · rw [count_eq_zero_of_not_mem (l := [cmd]) (by simpa using here)] at many
        exact .inl (h.twice c many)

theorem Tracked.foldlM {p₀ : IndexedPool Cmd A Hash R} :
    ∀ (cmds : List Cmd) {p : IndexedPool Cmd A Hash R} {rs : List (AddResult Cmd)}, Tracked p₀ p rs →
      (∀ before cmd after, cmds = before ++ cmd :: after → ∀ p' rs' account,
        before.foldlM d.addStep (p, rs) = .ok (p', rs') → d.accounts (feePayer cmd) = some account →
        p'.Reports d.globalSlotSinceGenesis d.currentGlobalSlot cmd account) →
      cmds.foldlM d.addStep (p, rs) = .ok (p', rs') → Tracked p₀ p' rs'
  | [], p, rs, h, _, run => by
    cases run
    exact h
  | cmd :: cmds, p, rs, h, reports, run => by
    rw [foldlM_cons] at run
    obtain ⟨⟨p₁, rs₁⟩, first, rest⟩ := bind_eq_ok.1 run
    have h₁ := h.step (reports [] cmd cmds rfl p rs · rfl) first
    refine Tracked.foldlM cmds h₁ (fun before cmd' after split p' rs' account later => ?_) rest
    refine reports (cmd :: before) cmd' after (by rw [split]; rfl) p' rs' account ?_
    rw [foldlM_cons, first, ok_bind]
    exact later

theorem addAll_tracked (reports : d.Reports p) (run : d.addAll p = .ok (p', rs)) : Tracked p p' rs := by
  have start : Tracked p p ([] : List (AddResult Cmd)) :=
    ⟨fun _ mem => .inl mem, by simp, by simp, by simp⟩
  exact Tracked.foldlM d.list start reports run

end VerifiedDiff

namespace BatchedPool

variable {d : VerifiedDiff Cmd A} {t t' : BatchedPool Cmd A Hash R Fp Vk}
  {r : Applied Cmd Hash}

/-- **What a call of `apply` whose additions report returns**: the accepted commands are
    distinct, new and in the pool, and a command that left it is among the dropped. -/
theorem applied_members (reports : d.Reports t.pool) (run : t.apply d = .ok (t', r)) :
    (r.accepted.map hash).Nodup ∧
      (∀ c ∈ r.accepted, ¬ t.pool.member c ∧ t'.pool.member c ∧ hash c ∉ r.dropped) ∧
      ∀ c, t.pool.member c → hash c ∉ r.dropped → t'.pool.member c := by
  obtain ⟨pool, rs, ds, adds, trim, dropped, accepted⟩ := apply_spec run
  have h := VerifiedDiff.addAll_tracked reports adds
  have drops := TransactionPool.dropUntil_drops trim
  have dropped_iff : ∀ c, hash c ∈ r.dropped ↔ c ∈ rs.flatMap AddResult.dropped ∨ c ∈ ds := by
    intro c
    rw [dropped, mem_map_of_injective PoolCommand.hash_injective, mem_append]
  have survives : ∀ c, hash c ∉ r.dropped → (pool.member c ∨ c ∈ rs.flatMap AddResult.dropped) →
      t'.pool.member c := by
    intro c kept known
    rw [dropped_iff, not_or] at kept
    exact (drops.member c).2 ⟨known.resolve_right kept.1, kept.2⟩
  have mem_accepted : ∀ c, c ∈ r.accepted ↔ c ∈ rs.filterMap AddResult.added ∧ hash c ∉ r.dropped := by
    intro c
    rw [accepted]
    simp
  refine ⟨?_, ?_, fun c mem kept => survives c kept (h.old c mem)⟩
  · refine (nodup_iff_count_le_one.2 fun c => ?_).map PoolCommand.hash_injective
    by_contra many
    have mem : c ∈ r.accepted := count_pos_iff.1 (by omega)
    refine ((mem_accepted c).1 mem).2 ((dropped_iff c).2 (.inl (h.twice c ?_)))
    have fewer : r.accepted.count c ≤ (rs.filterMap AddResult.added).count c := by
      rw [accepted]
      exact (filter_sublist ..).count_le c
    omega
  · intro c mem
    obtain ⟨added, kept⟩ := (mem_accepted c).1 mem
    refine ⟨fun before => kept ((dropped_iff c).2 (.inl (h.new c added before))), ?_, kept⟩
    exact survives c kept (h.added c added)

end BatchedPool
end MinaRust.TransactionPool
