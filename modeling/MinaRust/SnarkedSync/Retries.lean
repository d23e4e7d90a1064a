/-
  The attempts to query an address.

  An answer that is rejected, or comes in the wrong kind, leaves its attempt successful, so
  that `sync_address_retry_iter` never offers the address again.
-/
import MinaRust.SnarkedSync.Steps

set_option linter.unusedSectionVars false

namespace MinaRust.SnarkedSync

open Ledger OrdMap

variable {P A I F : Type} [LinearOrder P] [DecidableEq I] [DecidableEq F]
  {V : TreeVersion A I F} {s s' : Sync P A I F}
  {e : Event P A F} {target : LedgerHash F} {queue : Queue F} {pending : Pending P F}
  {address : Address} {peer : P} {rpcId : ℕ} {q : LedgerAddressQueryPending P F}

/-! ## No address is lost -/

/-- **Every address under way has a request that is sent, or is offered again.** -/
def NoneLost (pending : Pending P F) : Prop :=
  ∀ address q, pending.get address = some q →
    (∃ peer st, q.attempts.get peer = some st ∧ (st = .init ∨ st.isPending = true)) ∨
      address ∈ syncAddressRetryIter pending

def Single (q : LedgerAddressQueryPending P F) : Prop :=
  ∀ peer peer' st st', q.attempts.get peer = some st → q.attempts.get peer' = some st' →
    st.isError = false → st'.isError = false → peer = peer'

def Waits (q : LedgerAddressQueryPending P F) : Prop :=
  (∃ peer st, q.attempts.get peer = some st ∧ (st = .init ∨ st.isPending = true)) ∨
    ∀ peer st, q.attempts.get peer = some st → st.isError = true

theorem noneLost_iff : NoneLost pending ↔ ∀ address q, pending.get address = some q → Waits q := by
  refine forall_congr' fun address => forall_congr' fun q => forall_congr' fun found => or_congr_right ?_
  rw [mem_syncAddressRetryIter]
  constructor
  · rintro ⟨q', found', errors⟩
    cases found.symm.trans found'
    exact errors
  · exact fun errors => ⟨q, found, errors⟩

structure Tidy (pending : Pending P F) : Prop where
  single : ∀ address q, pending.get address = some q → Single q
  waits : ∀ address q, pending.get address = some q → Waits q

theorem Tidy.empty : Tidy (.empty : Pending P F) := ⟨nofun, nofun⟩

theorem Tidy.remove (h : Tidy pending) (address : Address) : Tidy (pending.remove address) := by
  have stays : ∀ address' q, (pending.remove address).get address' = some q → pending.get address' = some q := by
    intro address' q found
    rw [get_remove] at found
    split at found
    · cases found
    · exact found
  exact ⟨fun address' q found => h.single address' q (stays address' q found),
    fun address' q found => h.waits address' q (stays address' q found)⟩

variable {pending' : Pending P F}

theorem Tidy.of_get (h : Tidy pending) (address : Address) (single : Single q) (waits : Waits q)
    (get : ∀ address', pending'.get address' = if address' = address then some q else pending.get address') :
    Tidy pending' := by
  constructor
  all_goals
    intro address' q' found
    rw [get] at found
    split at found
  · cases found
    exact single
  · exact h.single address' q' found
  · cases found
    exact waits
  · exact h.waits address' q' found

variable {st : PeerRpcState}

theorem Single.insert
    (others : ∀ peer' st', peer' ≠ peer → q.attempts.get peer' = some st' → st'.isError = true) :
    Single { q with attempts := q.attempts.insert peer st } := by
  have only : ∀ peer' st', (q.attempts.insert peer st).get peer' = some st' → st'.isError = false → peer' = peer := by
    intro peer' st' found fine
    by_contra ne
    rw [get_insert, if_neg ne] at found
    rw [others peer' st' ne found] at fine
    cases fine
  intro p p' st₁ st₂ found found' fine fine'
  exact (only p st₁ found fine).trans (only p' st₂ found' fine').symm

theorem Single.others (single : Single q) (found : q.attempts.get peer = some st) (fine : st.isError = false) :
    ∀ peer' st', peer' ≠ peer → q.attempts.get peer' = some st' → st'.isError = true := by
  intro peer' st' ne found'
  by_contra fine'
  exact ne (single peer' peer st' st found' found (Bool.not_eq_true _ ▸ fine') fine)

theorem waits_init (q : LedgerAddressQueryPending P F) (peer : P) :
    Waits { q with attempts := q.attempts.insert peer .init } :=
  .inl ⟨peer, .init, by rw [get_insert, if_pos rfl], .inl rfl⟩

theorem Progress.tidy (progress : Progress q peer st) (single : Single q) :
    Single { q with attempts := q.attempts.insert peer st } ∧
      Waits { q with attempts := q.attempts.insert peer st } := by
  cases progress with
  | retry errors => exact ⟨.insert fun peer' st' _ found => errors peer' st' found, waits_init q peer⟩
  | sent waits =>
    exact ⟨.insert (single.others waits rfl),
      .inl ⟨peer, .pending _, by rw [get_insert, if_pos rfl], .inr rfl⟩⟩
  | failed waits =>
    have others := single.others waits rfl
    refine ⟨.insert others, .inr fun peer' st' found => ?_⟩
    rw [get_insert] at found
    split at found
    · cases found
      rfl
    · next ne => exact others peer' st' ne found

theorem not_waits_success (single : Single q) (waits : q.attempts.get peer = some (.pending rpcId)) :
    ¬ Waits { q with attempts := q.attempts.insert peer (.success rpcId) } := by
  have get := get_insert q.attempts peer (.success rpcId)
  have others := single.others waits rfl
  rintro (⟨peer', st, found, alive⟩ | errors)
  · dsimp only at found
    rw [get] at found
    split at found
    · cases found
      rcases alive with alive | alive <;> cases alive
    · next ne =>
      have failed := others peer' st ne found
      rcases alive with rfl | alive
      · cases failed
      · cases st with
        | error _ _ => cases alive
        | _ => cases failed
  · exact absurd (errors peer _ ((get peer).trans (if_pos rfl))) (by simp [PeerRpcState.isError])

def Event.Usable (V : TreeVersion A I F) (s : Sync P A I F) (e : Event P A F) : Prop :=
  ∀ peer rpcId response, e = .addressAnswer peer rpcId response →
    ∀ address q, queryOf s.state.pendingAddresses peer rpcId = some (address, q) →
      SnarkedSync.Usable V s.ledger address q.expectedHash response

theorem get_setAttempt_of_found (peer : P) (st : PeerRpcState) (found : pending.get address = some q)
    (address' : Address) :
    (setAttempt pending address peer st).get address' =
      if address' = address then some { q with attempts := q.attempts.insert peer st }
      else pending.get address' := by
  rw [get_setAttempt]
  split
  · next eq => rw [eq, found]; rfl
  · rfl

theorem remove_setAttempt (pending : Pending P F) (address : Address) (peer : P) (st : PeerRpcState)
    (address' : Address) :
    ((setAttempt pending address peer st).remove address).get address' = (pending.remove address).get address' := by
  rw [get_remove, get_remove, get_setAttempt]
  split <;> rfl

theorem Tidy.congr (h : Tidy pending) (same : ∀ address, pending'.get address = pending.get address) :
    Tidy pending' :=
  ⟨fun address q found => h.single address q (same address ▸ found),
    fun address q found => h.waits address q (same address ▸ found)⟩

/-- **One step** loses no address exactly when its answer is accepted. -/
theorem step_tidy (h : Tidy s.state.pendingAddresses) (run : step V s e = .ok s') :
    (e.Usable V s → Tidy s'.state.pendingAddresses) ∧ (NoneLost s'.state.pendingAddresses → e.Usable V s) := by
  by_cases phase : ∃ target queue pending, s.state = .merkleTreeSyncPending target queue pending
  swap
  · obtain ⟨before, after⟩ := step_other (fun target queue pending state => phase ⟨target, queue, pending, state⟩) run
    rw [after]
    refine ⟨fun _ => .empty, fun _ peer rpcId response _ address q found => ?_⟩
    rw [before] at found
    cases found
  obtain ⟨target, queue, pending, phase⟩ := phase
  have addresses : s.state.pendingAddresses = pending := by rw [phase]; rfl
  have change := step_change phase run
  rw [addresses] at h
  unfold Event.Usable
  rw [addresses]
  cases change with
  | nothing e quiet =>
    rw [addresses]
    refine ⟨fun _ => h, fun _ peer rpcId response same address q found => ?_⟩
    rw [quiet peer rpcId response same] at found
    cases found
  | sent address peer expected queued =>
    refine ⟨fun _ => h.of_get address (q := ⟨expected, empty.insert peer .init⟩)
      (Single.insert (q := ⟨expected, .empty⟩) nofun) (waits_init ⟨expected, .empty⟩ peer)
      (get_insert pending address _), fun _ peer rpcId response same => ?_⟩
    cases same
  | attempt e address q peer st noAnswer named found progress =>
    obtain ⟨single, waits⟩ := progress.tidy (h.single address q found)
    refine ⟨fun _ => h.of_get address single waits (get_setAttempt_of_found peer st found), ?_⟩
    exact fun _ peer rpcId response same => absurd same (noAnswer peer rpcId response)
  | unusable peer rpcId response address q ledger found refused touches =>
    obtain ⟨stored, waits⟩ := queryOf_eq_some found
    refine ⟨fun usable => absurd (usable peer rpcId response rfl address q found) refused, fun kept => ?_⟩
    have lost := noneLost_iff.1 kept address { q with attempts := q.attempts.insert peer (.success rpcId) } (by
      show (setAttempt pending address peer (.success rpcId)).get address = _
      rw [get_setAttempt_of_found peer _ stored, if_pos rfl])
    exact absurd lost (not_waits_success (h.single address q stored) waits)
  | hashes peer rpcId address q l r l₀ r₀ ledger found usable before =>
    refine ⟨fun _ => ?_, fun _ peer' rpcId' response' same address' q' found' => ?_⟩
    · dsimp only
      rw [pendingAddresses_finish]
      exact (h.remove address).congr (remove_setAttempt pending address peer _)
    · cases same
      cases found.symm.trans found'
      exact usable
  | accounts peer rpcId address q accounts hash root written ledger found nonempty set matched computed =>
    refine ⟨fun _ => ?_, fun _ peer' rpcId' response' same address' q' found' => ?_⟩
    · dsimp only
      rw [pendingAddresses_finish]
      exact (h.remove address).congr (remove_setAttempt pending address peer _)
    · cases same
      cases found.symm.trans found'
      exact ⟨nonempty, hash, written, set, matched⟩

/-- **When a sync loses no address**: all states of a run do not exactly when every answer
    in it is accepted. -/
theorem run_noneLost_iff (V : TreeVersion A I F) (target : LedgerHash F)
    (ledger : MaskImpl A I F) (events : List (Event P A F)) :
    (∀ before s, before <+: events → run V (start target ledger) before = .ok s →
      NoneLost s.state.pendingAddresses) ↔
      ∀ before e s s', before ++ [e] <+: events → run V (start target ledger) before = .ok s →
        step V s e = .ok s' → e.Usable V s :=
  foldlM_good_iff (fun s => Tidy s.state.pendingAddresses) .empty (fun _ tidy => noneLost_iff.2 tidy.waits)
    fun _ _ _ _ _ _ last tidy => step_tidy tidy last

/-! ## Two answers that leave an address behind -/

/-- Accounts are numbers, and a hash is their sum. -/
def sums : TreeVersion ℕ ℕ ℕ where
  empty := 0
  id := id
  hashLeaf := id
  hashNode := fun _ left right => left + right

/-- One peer is asked for the number of accounts, and for the node above them. -/
def asked (count : ℕ) (contents : LedgerHash F) (node : Address) : List (Event ℕ A F) :=
  [.numAccountsInit 0, .numAccountsPending 0 0, .numAccountsAnswer 0 0 (.numAccounts count contents),
    .addressInit node 0, .addressPending node 0 1]

theorem not_noneLost_of_success (node : Address) {expected : LedgerHash ℕ} {pending : Pending ℕ ℕ}
    (stored : pending.get node = some ⟨expected, (empty.insert 0 (.pending 1)).insert 0 (.success 1)⟩) :
    ¬ NoneLost pending := by
  intro kept
  have single : Single (⟨expected, empty.insert 0 (.pending 1)⟩ : LedgerAddressQueryPending ℕ ℕ) :=
    Single.insert (q := ⟨expected, .empty⟩) nofun
  exact not_waits_success single rfl (noneLost_iff.1 kept node _ stored)

/-- Hashes that do not give the expected one, and hashes where the accounts are asked for:
    the attempt stays successful, and the address is not offered again. -/
theorem address_lost : (∃ s, run sums (start (.field 1) (.root (.create LEDGER_DEPTH)))
        (asked 128 (.field 1) (.first 28) ++ [.addressAnswer 0 1 (.childHashes (.field 5) (.field 7))]) = .ok s ∧
      ¬ NoneLost s.state.pendingAddresses) ∧
    ∃ s, run sums (start (.field 1) (.root (.create LEDGER_DEPTH)))
        (asked 1 (.field 1) (.first 34) ++ [.addressAnswer 0 1 (.childHashes (.field 1) (.field 0))]) = .ok s ∧
      ¬ NoneLost s.state.pendingAddresses :=
  ⟨⟨_, rfl, not_noneLost_of_success (.first 28) rfl⟩, _, rfl, not_noneLost_of_success (.first 34) rfl⟩

end MinaRust.SnarkedSync
