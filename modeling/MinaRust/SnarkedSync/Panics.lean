/-
  The answers that stop a syncing node.

  The counters of the progress, which `State` leaves out, run along with the sync
  (`stepCounted`): they are added to with `checked_add` and `expect`.
-/
import MinaRust.SnarkedSync.Complete

set_option linter.unusedSectionVars false

namespace MinaRust.SnarkedSync

open Ledger List OrdMap Nat SnarkedState

variable {P A I F : Type} [LinearOrder P] [DecidableEq I] [DecidableEq F]

/-! ## The counters -/

/-- `synced_accounts_count` and `synced_hashes_count` of `MerkleTreeSyncPending`, on `u64`. -/
structure Counters where
  accounts : ℕ
  hashes : ℕ
  deriving DecidableEq, Repr

def addCount (count n : ℕ) : Except SyncPanic ℕ :=
  if count + n < 2 ^ 64 then .ok (count + n) else .error .overflow

def countHash (empty : F) (count : ℕ) (hash : LedgerHash F) : Except SyncPanic ℕ :=
  if hash ≠ .field empty then addCount count 1 else .ok count

section
variable (V : TreeVersion A I F)

def usable (ledger : MaskImpl A I F) (address : Address) (expected : LedgerHash F) :
    PeerLedgerQueryResponse A F → Bool
  | .childHashes left right =>
    decide (address.length < LEDGER_DEPTH - ACCOUNT_SUBTREE_HEIGHT) &&
      match left.toField, right.toField with
      | some l, some r => decide (expected = .field (hashNodeAtDepth V address.length l r))
      | _, _ => false
  | .childAccounts accounts => decide (0 < accounts.length) &&
      match accountsSet V address accounts ledger with
      | .ok (hash, _) => decide (expected = .field hash)
      | .error _ => false
  | .numAccounts _ _ => false

/-- What `ChildHashesAccepted` and `ChildAccountsAccepted` add to the counters. -/
def countAnswer (c : Counters) (address : Address) : PeerLedgerQueryResponse A F → Except SyncPanic Counters
  | .childHashes left right => do
    let empty := ledgerEmptyHashAtDepth V (address.length + 1)
    let hashes ← countHash empty c.hashes left
    let hashes ← countHash empty hashes right
    return { c with hashes := hashes }
  | .childAccounts accounts => do
    let accounts ← addCount c.accounts accounts.length
    return { c with accounts := accounts }
  | .numAccounts _ _ => .ok c

/-- The counters after a step; they start at zero in `MerkleTreeSyncPending`. -/
def count (s : Sync P A I F) (c : Counters) (e : Event P A F) : Except SyncPanic Counters :=
  match s.state, e with
  | .numAccountsPending _ _, _ => .ok ⟨0, 0⟩
  | .merkleTreeSyncPending _ _ pending, .addressAnswer peer rpcId response =>
    match queryOf pending peer rpcId with
    | some (address, q) =>
      if usable V s.ledger address q.expectedHash response then countAnswer V c address response else .ok c
    | none => .ok c
  | _, _ => .ok c

structure Counted (P A I F : Type) [LinearOrder P] where
  sync : Sync P A I F
  counters : Counters

def stepCounted (s : Counted P A I F) (e : Event P A F) : Except SyncPanic (Counted P A I F) := do
  let sync ← step V s.sync e
  let counters ← count V s.sync s.counters e
  return ⟨sync, counters⟩

def runCounted (s : Counted P A I F) (events : List (Event P A F)) : Except SyncPanic (Counted P A I F) :=
  events.foldlM (stepCounted V) s

end

variable {V : TreeVersion A I F} {s s' : Sync P A I F} {c c' : Counters}
  {e : Event P A F} {target contents : LedgerHash F} {queue : Queue F} {pending : Pending P F}
  {address : Address} {peer : P} {rpcId : ℕ} {q : LedgerAddressQueryPending P F}
  {view : ℕ → Option A} {ledger : MaskImpl A I F} {expected : LedgerHash F}
  {response : PeerLedgerQueryResponse A F}

theorem usable_iff : usable V ledger address expected response = true ↔
    Usable V ledger address expected response := by
  cases response with
  | numAccounts count contents => simp [usable, Usable]
  | childHashes left right =>
    cases left <;> cases right <;> simp [usable, Usable, LedgerHash.toField]
  | childAccounts accounts =>
    cases set : accountsSet V address accounts ledger with
    | error e => simp [usable, Usable, set]
    | ok r =>
      obtain ⟨hash, ledger'⟩ := r
      simp [usable, Usable, set]

theorem countHash_ok (empty : F) (hash : LedgerHash F) {count : ℕ} (room : count + 1 < 2 ^ 64) :
    ∃ total, countHash empty count hash = .ok total ∧ total ≤ count + 1 := by
  have add : addCount count 1 = .ok (count + 1) := if_pos room
  unfold countHash
  rw [add]
  split
  · exact ⟨count + 1, rfl, le_rfl⟩
  · exact ⟨count, rfl, le_succ count⟩

theorem countAnswer_hashes (address : Address) (left right : LedgerHash F) (room : c.hashes + 2 < 2 ^ 64) :
    ∃ c', countAnswer V c address (.childHashes left right : PeerLedgerQueryResponse A F) = .ok c' ∧
      c'.hashes ≤ c.hashes + 2 := by
  have room₁ : c.hashes + 1 < 2 ^ 64 := by omega
  obtain ⟨first, run, le⟩ := countHash_ok (ledgerEmptyHashAtDepth V (address.length + 1)) left room₁
  have room₂ : first + 1 < 2 ^ 64 := by omega
  obtain ⟨second, run', le'⟩ := countHash_ok (ledgerEmptyHashAtDepth V (address.length + 1)) right room₂
  refine ⟨{ c with hashes := second }, ?_, by dsimp only; omega⟩
  rw [countAnswer, run, ok_bind, run']
  rfl

variable {accounts : List (Option A)}

theorem countAnswer_accounts :
    (∃ c', countAnswer V c address (.childAccounts accounts) = .ok c') ↔ c.accounts + accounts.length < 2 ^ 64 := by
  rw [countAnswer, addCount]
  split
  · next room => exact ⟨fun _ => room, fun _ => ⟨_, rfl⟩⟩
  · next full => exact ⟨fun ⟨_, run⟩ => (by cases run), fun room => absurd room full⟩

/-! ## What the functions of a sync can stop with -/

theorem mapM_id_iff : ∀ {encoded : List (Option A)},
    (∃ accounts, encoded.mapM id = some accounts) ↔ none ∉ encoded
  | [] => ⟨fun _ => not_mem_nil, fun _ => ⟨[], rfl⟩⟩
  | none :: encoded => ⟨fun ⟨_, decoded⟩ => (by cases decoded), fun all => absurd mem_cons_self all⟩
  | some account :: encoded => by
    have rest : (∃ accounts, encoded.mapM id = some accounts) ↔ none ∉ encoded := mapM_id_iff
    rw [mem_cons]
    constructor
    · rintro ⟨accounts, decoded⟩ (same | mem)
      · cases same
      · refine rest.1 ?_ mem
        cases tail : encoded.mapM id with
        | some accounts => exact ⟨accounts, rfl⟩
        | none =>
          rw [mapM_cons, tail] at decoded
          cases decoded
    · intro all
      obtain ⟨accounts, decoded⟩ := rest.2 fun mem => all (.inr mem)
      exact ⟨account :: accounts, by rw [mapM_cons, decoded]; rfl⟩

variable {n : ℕ}

theorem treeHeight_error (u64 : n < 2 ^ 64) (large : ¬ n ≤ 2 ^ 63) :
    treeHeightForNumAccounts n = .error .logarithm := by
  have one : n ≠ 1 := by
    rintro rfl
    exact large (by decide)
  have power : 2 ^ Nat.log 2 n ≠ n := by
    intro power
    rw [← power] at u64 large
    have low : Nat.log 2 n < 64 := (Nat.pow_lt_pow_iff_right (by decide)).1 u64
    exact large (Nat.pow_le_pow_right (by decide) (Nat.le_of_lt_succ low))
  rw [treeHeightForNumAccounts, if_neg one, if_neg power, if_neg large]

theorem treeHeight_iff (u64 : n < 2 ^ 64) :
    (∃ height, treeHeightForNumAccounts n = .ok height) ↔ n ≤ 2 ^ 63 := by
  constructor
  · rintro ⟨height, run⟩
    by_contra large
    cases run.symm.trans (treeHeight_error u64 large)
  · intro small
    unfold treeHeightForNumAccounts
    split
    · exact ⟨1, rfl⟩
    · split <;> exact ⟨_, rfl⟩

theorem completeNumAccounts_iff (contents : LedgerHash F) (u64 : n < 2 ^ 64) :
    (∃ hash, completeNumAccountsTreeWithEmpties V contents n = .ok hash) ↔ n ≤ 2 ^ 63 := by
  rw [completeNumAccountsTreeWithEmpties, ← treeHeight_iff u64]
  split
  · next zero =>
    subst zero
    exact ⟨fun _ => ⟨_, rfl⟩, fun _ => ⟨_, rfl⟩⟩
  · constructor
    · rintro ⟨hash, run⟩
      obtain ⟨height, tall, -⟩ := bind_eq_ok.1 run
      exact ⟨height, tall⟩
    · rintro ⟨height, tall⟩
      rw [tall, ok_bind]
      split <;> exact ⟨_, rfl⟩

theorem numAccountsReceived_iff (target : LedgerHash F) (attempts : OrdMap P PeerRpcState)
    (contents : LedgerHash F) (u64 : n < 2 ^ 64) :
    (∃ state, numAccountsReceived V target attempts n contents = .ok state) ↔ n ≤ 2 ^ 63 := by
  constructor
  · rintro ⟨state, run⟩
    obtain ⟨hash, computed, -⟩ := bind_eq_ok.1 run
    exact (completeNumAccounts_iff contents u64).1 ⟨hash, computed⟩
  · intro small
    obtain ⟨hash, computed⟩ := (completeNumAccounts_iff (V := V) contents u64).2 small
    obtain ⟨height, tall⟩ := (treeHeight_iff u64).2 small
    rw [numAccountsReceived, computed, ok_bind]
    split
    · rw [merkleTreeSyncPending, tall]
      exact ⟨_, rfl⟩
    · exact ⟨_, rfl⟩

theorem childHashesReceived_ok (kept : Local V view s.ledger) (clean : address.Clean) (left right : LedgerHash F) :
    ∃ s', childHashesReceived V s target queue pending address expected left right = .ok s' := by
  unfold childHashesReceived
  split
  · exact ⟨_, rfl⟩
  · next shallow =>
    split
    · split
      · exact ⟨_, rfl⟩
      · have short : address.length < LEDGER_DEPTH := (not_le.1 shallow).trans_le (sub_le ..)
        obtain ⟨ledger', run, -⟩ := kept.childHashesGet clean short
        rw [run]
        exact ⟨_, rfl⟩
    · exact ⟨_, rfl⟩

theorem childAccountsReceived_iff (kept : Local V view s.ledger) (clean : address.Clean)
    (short : address.length ≤ LEDGER_DEPTH) :
    (∃ s', childAccountsReceived V s target queue pending address expected accounts = .ok s') ↔ none ∉ accounts := by
  rw [← mapM_id_iff]
  constructor
  · rintro ⟨s', run⟩
    obtain ⟨⟨hash, written⟩, set, -⟩ := bind_eq_ok.1 run
    obtain ⟨decoded, found, -⟩ := bind_eq_ok.1 set
    exact ⟨decoded, okOr_eq_ok.1 found⟩
  · rintro ⟨decoded, found⟩
    obtain ⟨written, set, kept'⟩ := kept.accountsSet clean short found
    obtain ⟨ledger', computed, -⟩ := kept'.innerHash Address.clean_root (zero_le _)
    rw [childAccountsReceived, set, ok_bind]
    dsimp only
    split
    · exact ⟨_, rfl⟩
    · rw [computed, ok_bind]
      split <;> exact ⟨_, rfl⟩

/-! ## The states of a sync -/

theorem remaining_finish_le (target : LedgerHash F) (queue : Queue F) (pending : Pending P F) :
    (finish target queue pending).remaining ≤ queue.weight rounds + pending.weight rounds := by
  unfold finish
  split
  · exact zero_le _
  · exact le_rfl

/-- A step of the address phase does not raise `remaining`, and accepted hashes lower it. -/
theorem Change.remaining_le (change : Change V s target queue pending e s')
    (phase : s.state = .merkleTreeSyncPending target queue pending) :
    s'.state.remaining ≤ s.state.remaining ∧
      ∀ peer rpcId left right address q, e = .addressAnswer peer rpcId (.childHashes left right) →
        queryOf pending peer rpcId = some (address, q) →
        Usable V s.ledger address q.expectedHash (.childHashes left right) →
        s'.state.remaining + 1 ≤ s.state.remaining := by
  rw [phase]
  cases change with
  | nothing e quiet =>
    refine ⟨by rw [phase], fun peer rpcId left right address q same found => ?_⟩
    rw [quiet peer rpcId _ same] at found
    cases found
  | sent address peer expected queued =>
    have less := weight_remove_add_le rounds (m := queue) (k := address) (by simp [queued])
    have more := weight_insert_le rounds pending address ⟨expected, empty.insert peer .init⟩
    refine ⟨?_, fun _ _ _ _ _ _ same => by cases same⟩
    dsimp only [remaining]
    omega
  | attempt e address q peer st noAnswer named found progress =>
    refine ⟨?_, fun peer rpcId left right _ _ same => absurd same (noAnswer peer rpcId _)⟩
    dsimp only [remaining]
    rw [setAttempt, weight_modify]
  | unusable peer rpcId response address q ledger found refused touches =>
    refine ⟨?_, ?_⟩
    · dsimp only [remaining]
      rw [setAttempt, weight_modify]
    · intro peer' rpcId' left right address' q' same found' usable
      cases same
      cases found.symm.trans found'
      exact absurd usable refused
  | hashes peer rpcId address q l r l₀ r₀ ledger found usable before =>
    have finished := remaining_finish_le target
      (enqueue (enqueue queue address.childLeft (.field l) (.field l₀)) address.childRight (.field r) (.field r₀))
      ((setAttempt pending address peer (.success rpcId)).remove address)
    have left := weight_enqueue queue address.childLeft (.field l) (.field l₀)
    have right := weight_enqueue (enqueue queue address.childLeft (.field l) (.field l₀)) address.childRight
      (.field r) (.field r₀)
    have removed := Fetch.weight_removed (queryOf_eq_some found).1 peer (.success rpcId)
    have children := rounds_children usable.1
    have total : (SnarkedState.merkleTreeSyncPending target queue pending).remaining =
      queue.weight rounds + pending.weight rounds := rfl
    exact ⟨by dsimp only; omega, fun _ _ _ _ _ _ _ _ _ => by dsimp only; omega⟩
  | accounts peer rpcId address q encoded hash root written ledger found nonempty set matched computed =>
    have finished := remaining_finish_le target queue
      ((setAttempt pending address peer (.success rpcId)).remove address)
    have removed := Fetch.weight_removed (queryOf_eq_some found).1 peer (.success rpcId)
    have total : (SnarkedState.merkleTreeSyncPending target queue pending).remaining =
      queue.weight rounds + pending.weight rounds := rfl
    exact ⟨by dsimp only; omega, fun _ _ _ _ _ _ same => by cases same⟩

/-- **The states that a sync reaches**, from any local ledger and with any target. -/
structure Reached (V : TreeVersion A I F) (s : Counted P A I F) : Prop where
  kept : ∃ view, Local V view s.sync.ledger
  fetching : ∀ target queue pending, s.sync.state = .merkleTreeSyncPending target queue pending →
    ∃ top contents view, Fetching V top contents view s.sync.ledger queue pending
  hashes : s.counters.hashes + 2 * s.sync.state.remaining ≤ 2 ^ 31

theorem count_counting {attempts : OrdMap P PeerRpcState} (phase : s.state = .numAccountsPending target attempts) :
    count V s c e = .ok ⟨0, 0⟩ := by
  unfold count
  rw [phase]

theorem count_fetching (phase : s.state = .merkleTreeSyncPending target queue pending) (room : c.hashes + 2 < 2 ^ 64)
    (counted : count V s c e = .ok c') : c'.hashes = c.hashes ∨
      ∃ peer rpcId left right address q, e = .addressAnswer peer rpcId (.childHashes left right) ∧
        queryOf pending peer rpcId = some (address, q) ∧
        Usable V s.ledger address q.expectedHash (.childHashes left right) ∧ c'.hashes ≤ c.hashes + 2 := by
  unfold count at counted
  rw [phase] at counted
  cases e with
  | addressAnswer peer rpcId response =>
    dsimp only at counted
    cases found : queryOf pending peer rpcId with
    | none =>
      rw [found] at counted
      cases counted
      exact .inl rfl
    | some query =>
      obtain ⟨address, q⟩ := query
      rw [found] at counted
      dsimp only at counted
      split at counted
      · next accepted =>
        cases response with
        | childHashes left right =>
          obtain ⟨c'', run, le⟩ := countAnswer_hashes (V := V) address left right room
          cases counted.symm.trans run
          exact .inr ⟨peer, rpcId, left, right, address, q, rfl, found, usable_iff.1 accepted, le⟩
        | childAccounts accounts =>
          obtain ⟨total, -, run⟩ := bind_eq_ok.1 counted
          cases run
          exact .inl rfl
        | numAccounts n contents =>
          cases counted
          exact .inl rfl
      · cases counted
        exact .inl rfl
  | _ =>
    cases counted
    exact .inl rfl

theorem count_idle (counted : ∀ target attempts, s.state ≠ .numAccountsPending target attempts)
    (fetched : ∀ target queue pending, s.state ≠ .merkleTreeSyncPending target queue pending) :
    count V s c e = .ok c := by
  unfold count
  split
  · exact absurd ‹_› (counted _ _)
  · exact absurd ‹_› (fetched _ _ _)
  · rfl

theorem hashes_counting (target : LedgerHash F) (attempts : OrdMap P PeerRpcState) :
    0 + 2 * (numAccountsPending target attempts).remaining ≤ 2 ^ 31 := by
  have all : (numAccountsPending target attempts).remaining = 2 ^ 30 := rfl
  rw [all]
  norm_num

namespace Reached

variable {s s' : Counted P A I F}

theorem start (kept : Local V view ledger) (target : LedgerHash F) :
    Reached V (⟨SnarkedSync.start target ledger, ⟨0, 0⟩⟩ : Counted P A I F) :=
  ⟨⟨view, kept⟩, nofun, hashes_counting target .empty⟩

theorem room (h : Reached V s) : s.counters.hashes + 2 < 2 ^ 64 :=
  (Nat.add_le_add_right ((Nat.le_add_right ..).trans h.hashes) 2).trans_lt (by decide)

theorem step (h : Reached V s) (run : stepCounted V s e = .ok s') : Reached V s' := by
  obtain ⟨sync, stepped, run⟩ := bind_eq_ok.1 run
  obtain ⟨counters, counted, run⟩ := bind_eq_ok.1 run
  cases run
  by_cases counting : ∃ target attempts, s.sync.state = .numAccountsPending target attempts
  · obtain ⟨target, attempts, phase⟩ := counting
    obtain ⟨view, kept⟩ := h.kept
    cases counted.symm.trans (count_counting phase)
    obtain ⟨same, ⟨attempts', state⟩ | ⟨n, contents, height, -, -, state⟩⟩ := step_counting phase stepped
    · refine ⟨⟨view, by rw [same]; exact kept⟩, fun target queue pending state' => ?_, ?_⟩
      · cases state.symm.trans state'
      · rw [state]
        exact hashes_counting target attempts'
    · refine ⟨⟨view, by rw [same]; exact kept⟩, fun target queue pending state' => ?_, ?_⟩
      · cases state.symm.trans state'
        rw [same]
        exact ⟨_, contents, view, .first height kept contents⟩
      · have single := weight_insert_le rounds empty (Address.first (LEDGER_DEPTH - height)) contents
        have low := rounds_lt (Address.first (LEDGER_DEPTH - height))
        have zero : (empty : Queue F).weight rounds = 0 := rfl
        have zero' : (empty : Pending P F).weight rounds = 0 := rfl
        rw [zero, zero_add] at single
        rw [state]
        simp only [remaining, zero', add_zero, zero_add]
        exact mul_le_mul_left 2 (single.trans low.le)
  by_cases fetched : ∃ target queue pending, s.sync.state = .merkleTreeSyncPending target queue pending
  · obtain ⟨target, queue, pending, phase⟩ := fetched
    obtain ⟨top, contents, view, fetching⟩ := h.fetching target queue pending phase
    have change := step_change phase stepped
    obtain ⟨view', queue', pending', h', -, state⟩ := fetching.change phase change
    refine ⟨⟨view', h'.ledger⟩, fun target₁ queue₁ pending₁ state₁ => ⟨top, contents, view', ?_⟩, ?_⟩
    · rcases state with state | state
      · cases state.symm.trans state₁
        exact h'
      · rw [finish] at state
        split at state
        · cases state.symm.trans state₁
        · cases state.symm.trans state₁
          exact h'
    · obtain ⟨le, lt⟩ := change.remaining_le phase
      have before := h.hashes
      rcases count_fetching phase h.room counted with same | ⟨peer, rpcId, left, right, address, q, same, found, usable, more⟩
      · dsimp only
        omega
      · have := lt peer rpcId left right address q same found usable
        dsimp only
        omega
  · have noCount := fun target attempts state => counting ⟨target, attempts, state⟩
    have noFetch := fun target queue pending state => fetched ⟨target, queue, pending, state⟩
    cases counted.symm.trans (count_idle noCount noFetch)
    rcases step_idle noCount noFetch stepped with rfl | ⟨target, phase, rfl⟩
    · exact h
    · refine ⟨h.kept, fun _ _ _ state => (by cases state), ?_⟩
      have none : (SnarkedState.success target : SnarkedState P F).remaining = 0 := rfl
      exact (Nat.le_add_right ..).trans h.hashes

end Reached

/-! ## Answers -/

def Event.Sized : Event P A F → Prop
  | .numAccountsAnswer _ _ (.numAccounts n _) => n < 2 ^ 64
  | _ => True

/-- **The answers that do not stop the node**: a number of accounts up to `2 ^ 63`, and accounts
    that all decode and, when they are accepted, can be counted. -/
structure Handled (V : TreeVersion A I F) (s : Counted P A I F)
    (e : Event P A F) : Prop where
  height : ∀ peer rpcId n contents target attempts, e = .numAccountsAnswer peer rpcId (.numAccounts n contents) →
    s.sync.state = .numAccountsPending target attempts → awaits attempts peer rpcId = true → n ≤ 2 ^ 63
  decoded : ∀ peer rpcId accounts address q, e = .addressAnswer peer rpcId (.childAccounts accounts) →
    queryOf s.sync.state.pendingAddresses peer rpcId = some (address, q) → none ∉ accounts
  room : ∀ peer rpcId accounts address q, e = .addressAnswer peer rpcId (.childAccounts accounts) →
    queryOf s.sync.state.pendingAddresses peer rpcId = some (address, q) →
    Usable V s.sync.ledger address q.expectedHash (.childAccounts accounts) →
    s.counters.accounts + accounts.length < 2 ^ 64

/-- The state after an answer that is rejected: its attempt is over, and nothing else has
    changed. -/
def SnarkedState.rejected : SnarkedState P F → Event P A F → SnarkedState P F
  | .numAccountsPending target attempts, .numAccountsAnswer peer rpcId _ =>
    .numAccountsPending target (attempts.insert peer (.success rpcId))
  | .merkleTreeSyncPending target queue pending, .addressAnswer peer rpcId _ =>
    match queryOf pending peer rpcId with
    | some (address, _) => .merkleTreeSyncPending target queue (setAttempt pending address peer (.success rpcId))
    | none => .merkleTreeSyncPending target queue pending
  | state, _ => state

theorem step_rejected (delivered : e.delivered s = true) (refused : ¬ e.Accepted V s) (run : step V s e = .ok s') :
    s'.state = s.state.rejected e := by
  obtain ⟨state, ledger⟩ := s
  cases state with
  | numAccountsPending target attempts =>
    cases e with
    | numAccountsAnswer peer rpcId response =>
      have waits : awaits attempts peer rpcId = true := delivered
      simp only [step, waits, if_true] at run
      cases response with
      | childHashes left right | childAccounts accounts =>
        cases run
        rfl
      | numAccounts n contents =>
        obtain ⟨state, received, run⟩ := bind_eq_ok.1 run
        cases run
        obtain ⟨hash, computed, received⟩ := bind_eq_ok.1 received
        split at received
        · next matched =>
          rw [matched] at computed
          exact absurd (.inl ⟨n, contents, target, attempts, peer, rpcId, rfl, rfl, waits, computed⟩) refused
        · cases received
          rfl
    | _ => cases delivered
  | merkleTreeSyncPending target queue pending =>
    have change := step_change rfl run
    cases change with
    | nothing e quiet =>
      obtain ⟨peer, rpcId, response, address, q, same, found⟩ := (delivered_fetching rfl).1 delivered
      rw [quiet peer rpcId response same] at found
      cases found
    | sent address peer expected queued => cases delivered
    | attempt e address q peer st noAnswer named found progress =>
      obtain ⟨peer, rpcId, response, -, -, same, -⟩ := (delivered_fetching rfl).1 delivered
      exact absurd same (noAnswer peer rpcId response)
    | unusable peer rpcId response address q ledger found refused touches =>
      simp only [rejected, found]
    | hashes peer rpcId address q l r l₀ r₀ ledger found usable before =>
      exact absurd (.inr ⟨peer, rpcId, _, address, q, rfl, found, usable⟩) refused
    | accounts peer rpcId address q encoded hash root written ledger found nonempty set matched computed =>
      exact absurd (.inr ⟨peer, rpcId, _, address, q, rfl, found, nonempty, hash, written, set, matched⟩) refused
  | _ => cases delivered

theorem queryOf_fetching (found : queryOf s.state.pendingAddresses peer rpcId = some (address, q)) :
    ∃ target queue pending, s.state = .merkleTreeSyncPending target queue pending ∧
      queryOf pending peer rpcId = some (address, q) := by
  cases phase : s.state with
  | merkleTreeSyncPending target queue pending =>
    rw [phase] at found
    exact ⟨target, queue, pending, rfl, found⟩
  | _ =>
    rw [phase] at found
    cases found

namespace Reached

variable {s s' : Counted P A I F}

theorem handled_of_ok (h : Reached V s) (sized : e.Sized) (run : stepCounted V s e = .ok s') : Handled V s e := by
  obtain ⟨sync, stepped, run⟩ := bind_eq_ok.1 run
  obtain ⟨counters, counted, -⟩ := bind_eq_ok.1 run
  refine ⟨?_, ?_, ?_⟩
  · rintro peer rpcId n contents target attempts rfl phase waits
    simp only [SnarkedSync.step, phase, waits, if_true] at stepped
    obtain ⟨state, received, -⟩ := bind_eq_ok.1 stepped
    exact (numAccountsReceived_iff target _ contents sized).1 ⟨state, received⟩
  · rintro peer rpcId accounts address q rfl found
    obtain ⟨target, queue, pending, phase, found⟩ := queryOf_fetching found
    obtain ⟨top, contents, view, fetching⟩ := h.fetching target queue pending phase
    obtain ⟨clean, short⟩ := fetching.properAt (queryOf_eq_some found).1
    simp only [SnarkedSync.step, phase, addressAnswer, found] at stepped
    exact (childAccountsReceived_iff fetching.ledger clean short).1 ⟨sync, stepped⟩
  · rintro peer rpcId accounts address q rfl found accepted
    obtain ⟨target, queue, pending, phase, found⟩ := queryOf_fetching found
    simp only [count, phase, found, usable_iff.2 accepted, if_true] at counted
    exact countAnswer_accounts.1 ⟨counters, counted⟩

theorem step_of_handled (h : Reached V s) (sized : e.Sized) (handled : Handled V s e) :
    ∃ sync, SnarkedSync.step V s.sync e = .ok sync := by
  by_cases delivered : e.delivered s.sync = true
  · obtain ⟨⟨state, ledger⟩, c⟩ := s
    cases state with
    | numAccountsPending target attempts =>
      cases e with
      | numAccountsAnswer peer rpcId response =>
        have waits : awaits attempts peer rpcId = true := delivered
        simp only [SnarkedSync.step, waits, if_true]
        cases response with
        | childHashes _ _ | childAccounts _ => exact ⟨_, rfl⟩
        | numAccounts n contents =>
          obtain ⟨state, received⟩ :=
            (numAccountsReceived_iff (V := V) target (attempts.insert peer (.success rpcId)) contents sized).2
              (handled.height peer rpcId n contents target attempts rfl rfl waits)
          exact ⟨_, by dsimp only; rw [received]; rfl⟩
      | _ => cases delivered
    | merkleTreeSyncPending target queue pending =>
      obtain ⟨peer, rpcId, response, address, q, rfl, found⟩ := (delivered_fetching rfl).1 delivered
      obtain ⟨top, contents, view, fetching⟩ := h.fetching target queue pending rfl
      obtain ⟨clean, short⟩ := fetching.properAt (queryOf_eq_some found).1
      simp only [SnarkedSync.step, addressAnswer, found]
      cases response with
      | numAccounts _ _ => exact ⟨_, rfl⟩
      | childHashes left right => exact childHashesReceived_ok fetching.ledger clean left right
      | childAccounts accounts =>
        exact (childAccountsReceived_iff fetching.ledger clean short).2
          (handled.decoded peer rpcId accounts address q rfl found)
    | _ => cases delivered
  · exact step_of_not_delivered (Bool.eq_false_iff.2 delivered)

theorem count_of_handled (h : Reached V s) (handled : Handled V s e) :
    ∃ counters, count V s.sync s.counters e = .ok counters := by
  unfold count
  split
  · exact ⟨_, rfl⟩
  · next target queue pending peer rpcId response phase =>
    split
    · next address q found =>
      split
      · next accepted =>
        have found' : queryOf s.sync.state.pendingAddresses peer rpcId = some (address, q) := by
          rw [phase]
          exact found
        cases response with
        | childHashes left right =>
          obtain ⟨counters, run, -⟩ := countAnswer_hashes (V := V) address left right h.room
          exact ⟨counters, run⟩
        | childAccounts accounts =>
          exact countAnswer_accounts.2
            (handled.room peer rpcId accounts address q rfl found' (usable_iff.1 accepted))
        | numAccounts _ _ => exact ⟨_, rfl⟩
      · exact ⟨_, rfl⟩
    · exact ⟨_, rfl⟩
  · exact ⟨_, rfl⟩

end Reached

end MinaRust.SnarkedSync
