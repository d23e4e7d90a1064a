/-
  What the steps of a sync do.
-/
import MinaRust.SnarkedSync.State

set_option linter.unusedSectionVars false

namespace MinaRust.SnarkedSync

open Ledger List OrdMap

variable {P A I F : Type} [LinearOrder P] [DecidableEq I] [DecidableEq F]
  {V : TreeVersion A I F} {s s' : Sync P A I F}
  {e : Event P A F} {target : LedgerHash F} {queue : Queue F} {pending : Pending P F}
  {address : Address} {peer : P} {rpcId : ℕ} {q : LedgerAddressQueryPending P F}

/-! ## Attempts -/

theorem mem_syncAddressRetryIter : address ∈ syncAddressRetryIter pending ↔
    ∃ q, pending.get address = some q ∧ ∀ peer st, q.attempts.get peer = some st → st.isError = true := by
  constructor
  · intro mem
    obtain ⟨⟨_, q⟩, listed, rfl⟩ := mem_map.1 mem
    obtain ⟨stored, errors⟩ := mem_filter.1 listed
    refine ⟨q, get_eq_some.2 stored, fun peer st found => ?_⟩
    exact all_eq_true.1 errors (peer, st) (get_eq_some.1 found)
  · rintro ⟨q, found, errors⟩
    refine mem_map.2 ⟨(address, q), mem_filter.2 ⟨get_eq_some.1 found, ?_⟩, rfl⟩
    exact all_eq_true.2 fun ⟨peer, st⟩ mem => errors peer st (get_eq_some.2 mem)

theorem queryOf_eq_some (found : queryOf pending peer rpcId = some (address, q)) :
    pending.get address = some q ∧ q.attempts.get peer = some (.pending rpcId) := by
  obtain ⟨found, waits⟩ := Option.filter_eq_some_iff.1 found
  have mem := mem_of_find?_eq_some found
  have same := List.find?_some found
  refine ⟨get_eq_some.2 mem, ?_⟩
  cases attempt : q.attempts.get peer with
  | none =>
    rw [attempt] at waits
    cases waits
  | some st =>
    rw [attempt] at waits same
    cases st with
    | pending id =>
      have eq := of_decide_eq_true same
      cases eq
      rfl
    | init | error id reason | success id => cases waits

theorem get_setAttempt (pending : Pending P F) (address : Address) (peer : P) (st : PeerRpcState)
    (address' : Address) : (setAttempt pending address peer st).get address' =
      if address' = address then
        (pending.get address').map fun q => { q with attempts := q.attempts.insert peer st }
      else pending.get address' :=
  get_modify ..

/-! ## The steps of the address phase -/

/-- **The answers that are accepted**: matching hashes above the account subtrees, or a
    non-empty list of accounts that gives the expected hash. -/
def Usable (V : TreeVersion A I F) (ledger : MaskImpl A I F) (address : Address)
    (expected : LedgerHash F) : PeerLedgerQueryResponse A F → Prop
  | .childHashes left right => address.length < LEDGER_DEPTH - ACCOUNT_SUBTREE_HEIGHT ∧
      ∃ l r, left = .field l ∧ right = .field r ∧ expected = .field (hashNodeAtDepth V address.length l r)
  | .childAccounts accounts => 0 < accounts.length ∧
      ∃ hash ledger', accountsSet V address accounts ledger = .ok (hash, ledger') ∧ expected = .field hash
  | .numAccounts _ _ => False

/-- How the attempts of a query change without an answer. -/
inductive Progress (q : LedgerAddressQueryPending P F) (peer : P) : PeerRpcState → Prop
  | retry (errors : ∀ peer st, q.attempts.get peer = some st → st.isError = true) : Progress q peer .init
  | sent {rpcId : ℕ} (waits : q.attempts.get peer = some .init) : Progress q peer (.pending rpcId)
  | failed {rpcId : ℕ} {reason : PeerLedgerQueryError} (waits : q.attempts.get peer = some (.pending rpcId)) :
    Progress q peer (.error rpcId reason)

/-- The ledger after an answer that was not accepted: its accounts may have been written. -/
def Touches (V : TreeVersion A I F) (address : Address) (ledger ledger' : MaskImpl A I F) : Prop :=
  ledger' = ledger ∨ ∃ accounts hash written, accountsSet V address accounts ledger = .ok (hash, written) ∧
    (ledger' = written ∨ ∃ root, innerHash V .root written = .ok (root, ledger'))

inductive Change (V : TreeVersion A I F) (s : Sync P A I F)
    (target : LedgerHash F) (queue : Queue F) (pending : Pending P F) :
    Event P A F → Sync P A I F → Prop
  | nothing (e : Event P A F)
      (quiet : ∀ peer rpcId response, e = .addressAnswer peer rpcId response → queryOf pending peer rpcId = none) :
    Change V s target queue pending e s
  | sent (address : Address) (peer : P) (expected : LedgerHash F) (queued : queue.get address = some expected) :
    Change V s target queue pending (.addressInit address peer)
      ⟨.merkleTreeSyncPending target (queue.remove address)
        (pending.insert address ⟨expected, OrdMap.empty.insert peer .init⟩), s.ledger⟩
  | attempt (e : Event P A F) (address : Address) (q : LedgerAddressQueryPending P F) (peer : P)
      (st : PeerRpcState) (noAnswer : ∀ peer rpcId response, e ≠ .addressAnswer peer rpcId response)
      (named : ∀ rpcId, st = .pending rpcId → e = .addressPending address peer rpcId)
      (found : pending.get address = some q) (progress : Progress q peer st) :
    Change V s target queue pending e
      ⟨.merkleTreeSyncPending target queue (setAttempt pending address peer st), s.ledger⟩
  | unusable (peer : P) (rpcId : ℕ) (response : PeerLedgerQueryResponse A F) (address : Address)
      (q : LedgerAddressQueryPending P F) (ledger : MaskImpl A I F)
      (found : queryOf pending peer rpcId = some (address, q))
      (refused : ¬ Usable V s.ledger address q.expectedHash response) (touches : Touches V address s.ledger ledger) :
    Change V s target queue pending (.addressAnswer peer rpcId response)
      ⟨.merkleTreeSyncPending target queue (setAttempt pending address peer (.success rpcId)), ledger⟩
  | hashes (peer : P) (rpcId : ℕ) (address : Address) (q : LedgerAddressQueryPending P F) (l r l₀ r₀ : F)
      (ledger : MaskImpl A I F) (found : queryOf pending peer rpcId = some (address, q))
      (usable : Usable V s.ledger address q.expectedHash (.childHashes (.field l) (.field r)))
      (before : childHashesGet V address s.ledger = .ok ((l₀, r₀), ledger)) :
    Change V s target queue pending (.addressAnswer peer rpcId (.childHashes (.field l) (.field r)))
      ⟨finish target (enqueue (enqueue queue address.childLeft (.field l) (.field l₀)) address.childRight
        (.field r) (.field r₀)) ((setAttempt pending address peer (.success rpcId)).remove address), ledger⟩
  | accounts (peer : P) (rpcId : ℕ) (address : Address) (q : LedgerAddressQueryPending P F)
      (accounts : List (Option A)) (hash root : F) (written ledger : MaskImpl A I F)
      (found : queryOf pending peer rpcId = some (address, q)) (nonempty : 0 < accounts.length)
      (set : accountsSet V address accounts s.ledger = .ok (hash, written)) (matched : q.expectedHash = .field hash)
      (computed : innerHash V .root written = .ok (root, ledger)) :
    Change V s target queue pending (.addressAnswer peer rpcId (.childAccounts accounts))
      ⟨finish target queue ((setAttempt pending address peer (.success rpcId)).remove address), ledger⟩

theorem addressAnswer_change {response : PeerLedgerQueryResponse A F}
    (run : addressAnswer V s target queue pending peer rpcId response = .ok s') :
    Change V s target queue pending (.addressAnswer peer rpcId response) s' := by
  unfold addressAnswer at run
  cases found : queryOf pending peer rpcId with
  | none =>
    rw [found] at run
    cases run
    refine .nothing _ fun peer' rpcId' response' same => ?_
    cases same
    exact found
  | some e =>
    obtain ⟨address, q⟩ := e
    rw [found] at run
    cases response with
    | numAccounts count contents =>
      cases run
      exact .unusable peer rpcId _ address q _ found id (.inl rfl)
    | childHashes left right =>
      unfold childHashesReceived at run
      dsimp only at run
      split at run
      · next deep =>
        cases run
        exact .unusable peer rpcId _ address q _ found (fun usable => absurd usable.1 (by omega)) (.inl rfl)
      · next shallow =>
        split at run
        · next l r p hl hr hp =>
          cases left with
          | invalid _ => cases hl
          | field l' =>
          cases right with
          | invalid _ => cases hr
          | field r' =>
          cases hl
          cases hr
          split at run
          · next wrong =>
            cases run
            refine .unusable peer rpcId _ address q _ found ?_ (.inl rfl)
            rintro ⟨-, _, _, hl, hr, expected⟩
            cases hl
            cases hr
            rw [expected] at hp
            exact wrong (Option.some.inj hp)
          · next right =>
            obtain ⟨⟨⟨l₀, r₀⟩, ledger⟩, before, run⟩ := bind_eq_ok.1 run
            cases run
            refine .hashes peer rpcId address q l r l₀ r₀ ledger found ?_ before
            refine ⟨not_le.1 shallow, l, r, rfl, rfl, ?_⟩
            rw [not_not.1 right]
            cases expected : q.expectedHash with
            | invalid _ =>
              rw [expected] at hp
              cases hp
            | field x =>
              rw [expected] at hp
              cases hp
              rfl
        · next invalid =>
          cases run
          refine .unusable peer rpcId _ address q _ found ?_ (.inl rfl)
          rintro ⟨-, l, r, rfl, rfl, expected⟩
          exact invalid l r (hashNodeAtDepth V address.length l r) rfl rfl (by rw [expected]; rfl)
    | childAccounts accounts =>
      obtain ⟨⟨hash, written⟩, set, run⟩ := bind_eq_ok.1 run
      dsimp only at run
      split at run
      · next wrong =>
        cases run
        refine .unusable peer rpcId _ address q _ found ?_ (.inr ⟨accounts, hash, written, set, .inl rfl⟩)
        rintro ⟨-, hash', ledger', set', expected⟩
        cases set.symm.trans set'
        exact wrong expected
      · next matched =>
        obtain ⟨⟨root, ledger⟩, computed, run⟩ := bind_eq_ok.1 run
        split at run
        · next nonempty =>
          cases run
          exact .accounts peer rpcId address q accounts hash root written ledger found nonempty set
            (not_not.1 matched) computed
        · next empty =>
          cases run
          exact .unusable peer rpcId _ address q _ found (fun usable => empty usable.1)
            (.inr ⟨accounts, hash, written, set, .inr ⟨root, computed⟩⟩)

theorem step_change (phase : s.state = .merkleTreeSyncPending target queue pending) (run : step V s e = .ok s') :
    Change V s target queue pending e s' := by
  unfold step at run
  rw [phase] at run
  cases e with
  | addressAnswer peer rpcId response => exact addressAnswer_change run
  | addressInit address peer =>
    dsimp only at run
    cases queued : queue.get address with
    | none =>
      rw [queued] at run
      cases run
      exact .nothing _ nofun
    | some expected =>
      rw [queued] at run
      cases run
      exact .sent address peer expected queued
  | addressRetry address peer =>
    dsimp only at run
    split at run
    · next retry =>
      cases run
      obtain ⟨a, mem, same⟩ := any_eq_true.1 retry
      obtain rfl := of_decide_eq_true same
      obtain ⟨q, found, errors⟩ := mem_syncAddressRetryIter.1 mem
      exact .attempt _ a q peer .init nofun nofun found (.retry errors)
    · cases run
      exact .nothing _ nofun
  | addressPending address peer rpcId =>
    dsimp only at run
    split at run
    · next waits =>
      cases run
      obtain ⟨q, found, waits⟩ := Option.bind_eq_some_iff.1 waits
      refine .attempt _ address q peer _ nofun (fun rpcId' same => ?_) found (.sent waits)
      cases same
      rfl
    · cases run
      exact .nothing _ nofun
  | addressError peer rpcId reason =>
    dsimp only at run
    cases found : queryOf pending peer rpcId with
    | none =>
      rw [found] at run
      cases run
      exact .nothing _ nofun
    | some e =>
      obtain ⟨address, q⟩ := e
      rw [found] at run
      cases run
      obtain ⟨found, waits⟩ := queryOf_eq_some found
      exact .attempt _ address q peer _ nofun nofun found (.failed waits)
  | _ =>
    cases run
    exact .nothing _ nofun

/-! ## The other steps -/

/-- The answer that gives the number of accounts: the completed tree has the hash of the
    target. -/
def Accepts (V : TreeVersion A I F) (s : Sync P A I F) (e : Event P A F)
    (count : ℕ) (contents : LedgerHash F) : Prop :=
  ∃ target attempts peer rpcId, s.state = .numAccountsPending target attempts ∧
    e = .numAccountsAnswer peer rpcId (.numAccounts count contents) ∧ awaits attempts peer rpcId = true ∧
    completeNumAccountsTreeWithEmpties V contents count = .ok (some target)

/-- **A step while the number of accounts is asked for**: it is still asked for, or an answer
    is accepted. -/
theorem step_counting {attempts : OrdMap P PeerRpcState} (phase : s.state = .numAccountsPending target attempts)
    (run : step V s e = .ok s') : s'.ledger = s.ledger ∧
      ((∃ attempts', s'.state = .numAccountsPending target attempts') ∨
        ∃ count contents height, Accepts V s e count contents ∧ treeHeightForNumAccounts count = .ok height ∧
          s'.state = .merkleTreeSyncPending target
            (OrdMap.empty.insert (.first (LEDGER_DEPTH - height)) contents) .empty) := by
  unfold step at run
  rw [phase] at run
  cases e with
  | numAccountsInit peer =>
    cases run
    exact ⟨rfl, .inl ⟨_, rfl⟩⟩
  | numAccountsPending peer rpcId | numAccountsError peer rpcId error =>
    dsimp only at run
    split at run
    · cases run
      exact ⟨rfl, .inl ⟨_, rfl⟩⟩
    · cases run
      exact ⟨rfl, .inl ⟨_, phase⟩⟩
  | numAccountsAnswer peer rpcId response =>
    dsimp only at run
    split at run
    · next waits =>
      cases response with
      | numAccounts count contents =>
        obtain ⟨state, received, run⟩ := bind_eq_ok.1 run
        cases run
        refine ⟨rfl, ?_⟩
        obtain ⟨actual, computed, received⟩ := bind_eq_ok.1 received
        split at received
        · next matched =>
          obtain ⟨height, tall, received⟩ := bind_eq_ok.1 received
          cases received
          rw [matched] at computed
          exact .inr ⟨count, contents, height, ⟨target, attempts, peer, rpcId, phase, rfl, waits, computed⟩, tall, rfl⟩
        · cases received
          exact .inl ⟨_, rfl⟩
      | childHashes _ _ | childAccounts _ =>
        cases run
        exact ⟨rfl, .inl ⟨_, rfl⟩⟩
    · cases run
      exact ⟨rfl, .inl ⟨_, phase⟩⟩
  | _ =>
    cases run
    exact ⟨rfl, .inl ⟨_, phase⟩⟩

/-- **A step outside the two phases** changes nothing, or ends the sync. -/
theorem step_idle (counted : ∀ target attempts, s.state ≠ .numAccountsPending target attempts)
    (fetched : ∀ target queue pending, s.state ≠ .merkleTreeSyncPending target queue pending)
    (run : step V s e = .ok s') :
    s' = s ∨ ∃ target, s.state = .merkleTreeSyncSuccess target ∧ s' = { s with state := .success target } := by
  unfold step at run
  cases phase : s.state with
  | numAccountsPending target attempts => exact absurd phase (counted target attempts)
  | merkleTreeSyncPending target queue pending => exact absurd phase (fetched target queue pending)
  | numAccountsSuccess _ _ _ | success _ =>
    rw [phase] at run
    cases run
    exact .inl rfl
  | merkleTreeSyncSuccess target =>
    rw [phase] at run
    cases e with
    | success =>
      cases run
      exact .inr ⟨target, rfl, rfl⟩
    | _ =>
      cases run
      exact .inl rfl

/-- The addresses under way: `fetch_pending`, and none outside the address phase. -/
def SnarkedState.pendingAddresses : SnarkedState P F → Pending P F
  | .merkleTreeSyncPending _ _ pending => pending
  | _ => .empty

@[simp] theorem pendingAddresses_finish : (finish target queue pending).pendingAddresses = pending := by
  unfold finish
  split
  · next done =>
    obtain ⟨entries, sorted⟩ := pending
    cases done.2
    rfl
  · rfl

theorem step_other (phase : ∀ target queue pending, s.state ≠ .merkleTreeSyncPending target queue pending)
    (run : step V s e = .ok s') : s.state.pendingAddresses = .empty ∧ s'.state.pendingAddresses = .empty := by
  have outside : s.state.pendingAddresses = .empty := by
    cases state : s.state with
    | merkleTreeSyncPending target queue pending => exact absurd state (phase target queue pending)
    | _ => rfl
  refine ⟨outside, ?_⟩
  by_cases counting : ∃ target attempts, s.state = .numAccountsPending target attempts
  · obtain ⟨target, attempts, counting⟩ := counting
    obtain ⟨-, ⟨_, state⟩ | ⟨_, _, _, -, -, state⟩⟩ := step_counting counting run
    all_goals
      rw [state]
      rfl
  · rcases step_idle (fun target attempts state => counting ⟨target, attempts, state⟩) phase run with rfl | ⟨_, -, rfl⟩
    · exact outside
    · rfl

end MinaRust.SnarkedSync
