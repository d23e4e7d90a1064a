/-
  A sync with honest peers ends.

  The peers answer from one ledger whose root is the target (`Source`).  No step stops, every
  answer is accepted, and each one lowers a bound on the answers still to come.
-/
import MinaRust.SnarkedSync.Honest

set_option linter.unusedSectionVars false

namespace MinaRust.SnarkedSync

open Ledger List OrdMap Address Nat MaskImpl SnarkedState

variable {P A I F : Type} [LinearOrder P] [DecidableEq I] [DecidableEq F]
  {V : TreeVersion A I F} {m : MaskImpl A I F}
  {s s' : Sync P A I F}
  {e : Event P A F} {target contents : LedgerHash F} {queue : Queue F} {pending : Pending P F}
  {address : Address} {peer : P} {rpcId : ℕ} {q : LedgerAddressQueryPending P F}
  {view : ℕ → Option A} {ledger : MaskImpl A I F}
  {response : PeerLedgerQueryResponse A F}

/-! ## Runs -/

/-- **The states of a sync with honest peers.** -/
inductive Serving (V : TreeVersion A I F) (m : MaskImpl A I F)
    (target : LedgerHash F) : Sync P A I F → Prop
  | counting {attempts : OrdMap P PeerRpcState} {view : ℕ → Option A}
      {ledger : MaskImpl A I F} (kept : Local V view ledger)
      (fewer : ∀ j, m.numAccounts ≤ j → view j = none) :
    Serving V m target ⟨.numAccountsPending target attempts, ledger⟩
  | fetching {view : ℕ → Option A} {ledger : MaskImpl A I F} {queue : Queue F}
      {pending : Pending P F} (fetch : Fetch V m view ledger queue pending) (tidy : Tidy pending)
      (unfinished : ¬ (queue.entries = [] ∧ pending.entries = [])) :
    Serving V m target ⟨.merkleTreeSyncPending target queue pending, ledger⟩
  | synced {ledger : MaskImpl A I F} : Serving V m target ⟨.merkleTreeSyncSuccess target, ledger⟩
  | ended {ledger : MaskImpl A I F} : Serving V m target ⟨.success target, ledger⟩

/-- The ledger of the peers: its root is the target, and it has accounts. -/
structure Source (V : TreeVersion A I F) (m : MaskImpl A I F)
    (target : LedgerHash F) : Prop extends Served V m where
  root : target = .field (V.nodeHash m.view LEDGER_DEPTH 0)
  nonempty : 0 < m.numAccounts

theorem getNumAccounts_accepted (ok : m.Answers V LEDGER_DEPTH m.lastAccount) (nonempty : 0 < m.numAccounts) :
    ∃ height m', getNumAccounts V m = .ok (some (m.numAccounts, V.nodeHash m.view height 0), m') ∧
      height ≤ LEDGER_DEPTH ∧ treeHeightForNumAccounts m.numAccounts = .ok height ∧
      completeNumAccountsTreeWithEmpties V (.field (V.nodeHash m.view height 0)) m.numAccounts =
        .ok (some (.field (V.nodeHash m.view LEDGER_DEPTH 0))) := by
  obtain ⟨height, tall, fits, room⟩ := treeHeight_spec (numAccounts_le ok)
  obtain ⟨m', run⟩ := getNumAccounts_spec ok fits tall
  refine ⟨height, m', run, fits, tall, ?_⟩
  have completed : completeHeightTreeWithEmpties V (.field (V.nodeHash m.view height 0)) height =
      some (.field (V.nodeHash m.view LEDGER_DEPTH 0)) :=
    completeHeightTree_eq fits fun j after => view_eq_none ok (by omega)
  rw [completeNumAccountsTreeWithEmpties, if_neg nonempty.ne', tall, ok_bind, if_neg (not_lt.2 fits), completed]
  rfl

theorem step_of_not_delivered (none : e.delivered s = false) : ∃ s', step V s e = .ok s' := by
  obtain ⟨state, ledger⟩ := s
  cases state with
  | numAccountsPending target attempts =>
    cases e with
    | numAccountsAnswer peer rpcId response =>
      have unasked : awaits attempts peer rpcId = false := none
      exact ⟨_, by simp only [step, unasked]; rfl⟩
    | numAccountsPending _ _ | numAccountsError _ _ _ =>
      dsimp only [step]
      split <;> exact ⟨_, rfl⟩
    | _ => exact ⟨_, rfl⟩
  | merkleTreeSyncPending target queue pending =>
    cases e with
    | addressAnswer peer rpcId response =>
      have unasked : queryOf pending peer rpcId = .none := by simpa [Event.delivered] using none
      exact ⟨_, by simp only [step, addressAnswer, unasked]; rfl⟩
    | addressInit _ _ | addressRetry _ _ | addressPending _ _ _ | addressError _ _ _ =>
      dsimp only [step]
      split <;> exact ⟨_, rfl⟩
    | _ =>
      exact ⟨_, rfl⟩
  | numAccountsSuccess _ _ _ | success _ => exact ⟨_, rfl⟩
  | merkleTreeSyncSuccess target => cases e <;> exact ⟨_, rfl⟩

namespace Serving

variable {attempts : OrdMap P PeerRpcState}

theorem counted (source : Source V m target) (kept : Local V view ledger)
    (fewer : ∀ j, m.numAccounts ≤ j → view j = none)
    (honest : Honest V m ⟨.numAccountsPending target attempts, ledger⟩ (.numAccountsAnswer peer rpcId response))
    (waits : awaits attempts peer rpcId = true) :
    ∃ s', SnarkedSync.step V ⟨.numAccountsPending target attempts, ledger⟩ (.numAccountsAnswer peer rpcId response) =
        .ok s' ∧ Serving V m target s' ∧
      s'.state.remaining + 1 ≤ (SnarkedState.numAccountsPending target attempts).remaining ∧
      Event.Accepted V ⟨.numAccountsPending target attempts, ledger⟩ (.numAccountsAnswer peer rpcId response) := by
  obtain ⟨count, hash, m', run, rfl⟩ := honest.count peer rpcId response target attempts rfl rfl waits
  obtain ⟨height, m'', run', fits, tall, computed⟩ := getNumAccounts_accepted source.answers source.nonempty
  rw [← source.root] at computed
  cases run.symm.trans run'
  refine ⟨⟨.merkleTreeSyncPending target (empty.insert (.first (LEDGER_DEPTH - height))
    (.field (V.nodeHash m.view height 0))) .empty, ledger⟩, ?_, ?_, ?_, .inl ⟨_, _, target, attempts, peer, rpcId, rfl, rfl, waits, computed⟩⟩
  · simp only [SnarkedSync.step, waits, if_true, numAccountsReceived, computed, ok_bind,
      SnarkedSync.merkleTreeSyncPending, tall]
    rfl
  · refine .fetching ⟨kept, fewer, fun a e queued => ?_, nofun, nofun⟩ .empty (by simp [OrdMap.insert])
    rw [get_insert] at queued
    split at queued
    · next eq =>
      cases queued
      rw [eq, ← hashAtAddr_first fits]
      exact ⟨Nat.zero_mod _, sub_le .., rfl, by rw [toIndex_first, zero_mul]; exact source.nonempty⟩
    · cases queued
  · have single := weight_insert_le rounds empty (first (LEDGER_DEPTH - height))
      (LedgerHash.field (V.nodeHash m.view height 0))
    have zero : (empty : Queue F).weight rounds = 0 := rfl
    have zero' : (empty : Pending P F).weight rounds = 0 := rfl
    rw [zero, zero_add] at single
    simp only [remaining, zero', add_zero]
    exact succ_le_of_lt (single.trans_lt (rounds_lt _))

/-- **One step with honest peers**: it does not stop, an answer is accepted, and fewer are
    still to come. -/
theorem step (source : Source V m target) (h : Serving V m target s) (honest : Honest V m s e) :
    ∃ s', SnarkedSync.step V s e = .ok s' ∧ Serving V m target s' ∧
      s'.state.remaining + (if e.delivered s then 1 else 0) ≤ s.state.remaining ∧
      (e.delivered s = true → e.Accepted V s) := by
  cases h with
  | @counting attempts view ledger kept fewer =>
    by_cases delivered : e.delivered ⟨.numAccountsPending target attempts, ledger⟩ = true
    · cases e with
      | numAccountsAnswer peer rpcId response =>
        obtain ⟨s', run, serving, less, accepted⟩ := counted source kept fewer honest delivered
        exact ⟨s', run, serving, by rwa [if_pos delivered], fun _ => accepted⟩
      | _ => cases delivered
    · obtain ⟨⟨state', ledger'⟩, run⟩ := step_of_not_delivered (V := V) (Bool.not_eq_true _ ▸ delivered)
      obtain ⟨same, ⟨attempts', state⟩ | ⟨count, contents, height, accepts, -, -⟩⟩ := step_counting rfl run
      · cases state
        cases same
        exact ⟨_, run, .counting kept fewer, by simp only [if_neg delivered, remaining, add_zero, le_refl],
          fun yes => absurd yes delivered⟩
      · obtain ⟨_, _, peer, rpcId, state, rfl, waits, -⟩ := accepts
        cases state
        exact absurd waits delivered
  | @fetching view ledger queue pending fetch tidy unfinished =>
    have usable : ∀ peer rpcId response, e = .addressAnswer peer rpcId response → ∀ address q,
        queryOf pending peer rpcId = some (address, q) → Usable V ledger address q.expectedHash response :=
      fun peer rpcId response same address q found =>
        fetch.usable source.toServed (queryOf_eq_some found).1 (honest.answer peer rpcId response address q same found)
    have total : ∃ s', SnarkedSync.step V ⟨.merkleTreeSyncPending target queue pending, ledger⟩ e = .ok s' := by
      cases e with
      | addressAnswer peer rpcId response =>
        exact fetch.total (s := ⟨.merkleTreeSyncPending target queue pending, ledger⟩) source.toServed
          fun address q found => honest.answer peer rpcId response address q rfl found
      | _ =>
        exact step_of_not_delivered rfl
    obtain ⟨⟨state', ledger'⟩, run⟩ := total
    obtain ⟨view', queue', pending', fetch', state, less⟩ :=
      fetch.change source.toServed rfl unfinished honest (step_change rfl run)
    have tidy' : Tidy state'.pendingAddresses :=
      (step_tidy (s := ⟨.merkleTreeSyncPending target queue pending, ledger⟩) tidy run).1 usable
    refine ⟨_, run, ?_⟩
    have accepted : e.delivered ⟨.merkleTreeSyncPending target queue pending, ledger⟩ = true →
        e.Accepted V ⟨.merkleTreeSyncPending target queue pending, ledger⟩ := fun delivered => by
      obtain ⟨peer, rpcId, response, address, q, same, found⟩ := (delivered_fetching rfl).1 delivered
      exact .inr ⟨peer, rpcId, response, address, q, same, found, usable peer rpcId response same address q found⟩
    rcases state with ⟨state, unfinished'⟩ | state
    · cases state
      exact ⟨.fetching fetch' tidy' unfinished', less, accepted⟩
    · unfold finish at state
      split at state
      · cases state
        exact ⟨.synced, by simp only [remaining]; omega, accepted⟩
      · next unfinished' =>
        cases state
        exact ⟨.fetching fetch' tidy' unfinished', less, accepted⟩
  | @synced ledger =>
    obtain ⟨s', run⟩ := step_of_not_delivered (V := V) (e := e) (s := ⟨.merkleTreeSyncSuccess target, ledger⟩) rfl
    refine ⟨s', run, ?_⟩
    rcases step_idle (by rintro _ _ ⟨⟩) (by rintro _ _ _ ⟨⟩) run with same | ⟨_, state, same⟩
    · cases same
      exact ⟨.synced, le_rfl, nofun⟩
    · cases state
      cases same
      exact ⟨.ended, le_rfl, nofun⟩
  | @ended ledger =>
    exact ⟨_, rfl, .ended, le_rfl, nofun⟩

theorem run (source : Source V m target) : ∀ {events : List (Event P A F)}
    {s : Sync P A I F}, Serving V m target s → Along (SnarkedSync.step V) (Honest V m) s events →
    ∃ s', SnarkedSync.run V s events = .ok s' ∧ Serving V m target s' ∧
      deliveries V s events + s'.state.remaining ≤ s.state.remaining ∧
      Along (SnarkedSync.step V) (fun s e => e.delivered s = true → e.Accepted V s) s events
  | [], s, h, _ => ⟨s, rfl, h, by simp [deliveries], trivial⟩
  | e :: events, s, h, ⟨honest, rest⟩ => by
    obtain ⟨s₁, first, h₁, less, accepted⟩ := h.step source honest
    obtain ⟨s', ran, h', less', accepted'⟩ := Serving.run source h₁ (rest s₁ first)
    refine ⟨s', ?_, h', ?_, accepted, fun s₂ first' => ?_⟩
    · rw [SnarkedSync.run, foldlM_cons, first]
      exact ran
    · rw [deliveries, first]
      dsimp only
      omega
    · cases first.symm.trans first'
      exact accepted'

/-! ## A sync that is not finished -/

/-- Honest peers can bring the sync forward. -/
def Advances (V : TreeVersion A I F) (m : MaskImpl A I F) (s : Sync P A I F) : Prop :=
  ∃ more s', Along (SnarkedSync.step V) (Honest V m) s more ∧ SnarkedSync.run V s more = .ok s' ∧
    s'.state.remaining < s.state.remaining

theorem Advances.cons (source : Source V m target) (h : Serving V m target s) (honest : Honest V m s e)
    (next : ∀ s', SnarkedSync.step V s e = .ok s' → Serving V m target s' → Advances V m s') : Advances V m s := by
  obtain ⟨s₁, first, h₁, less, -⟩ := h.step source honest
  obtain ⟨more, s', along, ran, less'⟩ := next s₁ first h₁
  refine ⟨e :: more, s', ⟨honest, fun s₂ first' => ?_⟩, ?_, by omega⟩
  · cases first.symm.trans first'
    exact along
  · rw [SnarkedSync.run, foldlM_cons, first]
    exact ran

theorem Advances.answer (source : Source V m target) (h : Serving V m target s) (honest : Honest V m s e)
    (delivered : e.delivered s = true) : Advances V m s := by
  obtain ⟨s', first, -, less, -⟩ := h.step source honest
  rw [if_pos delivered] at less
  refine ⟨[e], s', ⟨honest, fun _ _ => trivial⟩, ?_, by omega⟩
  rw [SnarkedSync.run, foldlM_cons, first]
  rfl

variable {expected : LedgerHash F}

theorem exists_answer (served : Served V m) (wanted : Wanted V m address expected) :
    ∃ response, AnswerOf V m address response := by
  unfold AnswerOf
  split
  · next shallow =>
    obtain ⟨m', run⟩ := getChildHashes_spec served.answers wanted.clean (shallow.trans (by decide))
    exact ⟨_, _, _, m', run, rfl⟩
  · obtain ⟨accounts, given, -⟩ := getChildAccounts_spec served wanted.short wanted.inside
    exact ⟨_, accounts, given, rfl⟩

variable (source : Source V m target) (peer)
include source peer

section
variable (h : Serving V m target ⟨.merkleTreeSyncPending target queue pending, ledger⟩)
include h

theorem advances_pending (rpcId : ℕ) (found : pending.get address = some q)
    (waits : q.attempts.get peer = some (.pending rpcId)) :
    Advances V m ⟨.merkleTreeSyncPending target queue pending, ledger⟩ := by
  cases id h with
  | fetching fetch tidy unfinished =>
    have query := queryOf_of_pending fetch.distinct found waits
    obtain ⟨response, answer⟩ := exists_answer source.toServed (fetch.sent address q found)
    refine .answer (e := .addressAnswer peer rpcId response) source h ⟨nofun, ?_, nofun⟩ ?_
    · intro peer' rpcId' response' address' q' same found'
      cases same
      cases query.symm.trans found'
      exact answer
    · exact (delivered_fetching rfl).2 ⟨peer, rpcId, response, address, q, rfl, query⟩

theorem advances_init (found : pending.get address = some q) (waits : q.attempts.get peer = some .init) :
    Advances V m ⟨.merkleTreeSyncPending target queue pending, ledger⟩ := by
  obtain ⟨rpcId, new⟩ := exists_fresh pending peer
  refine .cons (e := .addressPending address peer rpcId) source h ⟨nofun, nofun, ?_⟩ fun s' run h' => ?_
  · intro address' peer' rpcId' a q' same stored
    cases same
    exact new a q' stored
  · have initial : (pending.get address).bind (fun q => q.attempts.get peer) = some .init := by
      rw [found]
      exact waits
    simp only [SnarkedSync.step, if_pos initial] at run
    cases run
    refine advances_pending peer source h' rpcId
      ((get_setAttempt_of_found peer _ found address).trans (if_pos rfl)) ?_
    exact (get_insert ..).trans (if_pos rfl)

theorem advances_retry (found : pending.get address = some q)
    (errors : ∀ peer st, q.attempts.get peer = some st → st.isError = true) :
    Advances V m ⟨.merkleTreeSyncPending target queue pending, ledger⟩ := by
  refine .cons (e := .addressRetry address peer) source h ⟨nofun, nofun, nofun⟩ fun s' run h' => ?_
  have offered : ((syncAddressRetryIter pending).any fun a => decide (a = address)) = true :=
    any_eq_true.2 ⟨address, mem_syncAddressRetryIter.2 ⟨q, found, errors⟩, by simp⟩
  simp only [SnarkedSync.step, if_pos offered] at run
  cases run
  exact advances_init peer source h'
    ((get_setAttempt_of_found peer _ found address).trans (if_pos rfl)) ((get_insert ..).trans (if_pos rfl))

theorem advances_queued (queued : queue.get address = some expected) :
    Advances V m ⟨.merkleTreeSyncPending target queue pending, ledger⟩ := by
  refine .cons (e := .addressInit address peer) source h ⟨nofun, nofun, nofun⟩ fun s' run h' => ?_
  simp only [SnarkedSync.step, queued] at run
  cases run
  exact advances_init peer source h' ((get_insert ..).trans (if_pos rfl))
    ((get_insert ..).trans (if_pos rfl))

end

theorem advances_counting (h : Serving V m target ⟨.numAccountsPending target attempts, ledger⟩) :
    Advances V m ⟨.numAccountsPending target attempts, ledger⟩ := by
  refine .cons (e := .numAccountsInit peer) source h ⟨nofun, nofun, nofun⟩ fun s₁ run₁ h₁ => ?_
  cases run₁
  refine .cons (e := .numAccountsPending peer 0) source h₁ ⟨nofun, nofun, nofun⟩ fun s₂ run₂ h₂ => ?_
  have initial : (attempts.insert peer .init).get peer = some .init := (get_insert ..).trans (if_pos rfl)
  simp only [SnarkedSync.step, if_pos initial] at run₂
  cases run₂
  obtain ⟨height, m', given, -⟩ := getNumAccounts_accepted source.answers source.nonempty
  refine .answer (e := .numAccountsAnswer peer 0 (.numAccounts m.numAccounts (.field (V.nodeHash m.view height 0))))
    source h₂ ⟨?_, nofun, nofun⟩ ?_
  · intro peer' rpcId' response' target' attempts' same _ _
    cases same
    exact ⟨m.numAccounts, _, m', given, rfl⟩
  · exact decide_eq_true ((get_insert ..).trans (if_pos rfl))

end Serving

def SnarkedState.Finished (target : LedgerHash F) (state : SnarkedState P F) : Prop :=
  state = .merkleTreeSyncSuccess target ∨ state = .success target

/-- **Progress**: a sync that is not finished can be brought forward. -/
theorem Serving.advance [Nonempty P] (source : Source V m target) (h : Serving V m target s)
    (unfinished : ¬ s.state.Finished target) : Advances V m s := by
  obtain ⟨peer⟩ := ‹Nonempty P›
  cases id h with
  | counting kept fewer => exact advances_counting peer source h
  | @fetching view ledger queue pending fetch tidy left =>
    rcases not_and_or.1 left with nonempty | nonempty
    · obtain ⟨⟨a, expected⟩, mem⟩ := exists_mem_of_ne_nil _ nonempty
      exact advances_queued peer source h (get_eq_some.2 mem)
    · obtain ⟨⟨a, q⟩, mem⟩ := exists_mem_of_ne_nil _ nonempty
      have found := get_eq_some.2 mem
      rcases tidy.waits a q found with ⟨peer', st, attempt, rfl | waits⟩ | errors
      · exact advances_init peer' source h found attempt
      · cases st with
        | pending rpcId => exact advances_pending peer' source h rpcId found attempt
        | _ => cases waits
      · exact advances_retry peer source h found errors
  | synced => exact absurd (.inl rfl) unfinished
  | ended => exact absurd (.inr rfl) unfinished

theorem Serving.finish [Nonempty P] (source : Source V m target) (h : Serving V m target s) :
    ∃ more s', Along (SnarkedSync.step V) (Honest V m) s more ∧ SnarkedSync.run V s more = .ok s' ∧
      s'.state.Finished target := by
  induction left : s.state.remaining using Nat.strong_induction_on generalizing s with
  | h n ih =>
    by_cases finished : s.state.Finished target
    · exact ⟨[], s, trivial, rfl, finished⟩
    · obtain ⟨more, s₁, along, ran, less⟩ := h.advance source finished
      obtain ⟨_, ran', h₁, -⟩ := h.run source along
      cases ran.symm.trans ran'
      obtain ⟨more', s', along', rest, done⟩ := ih _ (left ▸ less) h₁ rfl
      refine ⟨more ++ more', s', along.append fun s₂ ran₂ => ?_, ?_, done⟩
      · cases ran.symm.trans ran₂
        exact along'
      · rw [SnarkedSync.run, foldlM_append]
        rw [SnarkedSync.run] at ran
        rw [ran]
        exact rest

/-! ## Ledgers with one account -/

theorem local_create : Local V (fun _ => none) (.root (.create LEDGER_DEPTH)) :=
  ⟨.create LEDGER_DEPTH, rfl, Database.sound_create, rfl⟩

/-- Hashes without collisions. -/
inductive Term where
  | leaf (account : ℕ)
  | node (height : ℕ) (left right : Term)
  deriving DecidableEq

def free : TreeVersion ℕ ℕ Term where
  empty := 0
  id := id
  hashLeaf := .leaf
  hashNode := .node

theorem free_injective {view view' : ℕ → Option ℕ} {height i : ℕ}
    (same : free.nodeHash view height i = free.nodeHash view' height i) {j : ℕ} (below : j / 2 ^ height = i) :
    free.leafHash (view j) = free.leafHash (view' j) :=
  Merkle.hashAt_injective (fun _ _ _ _ _ eq => ⟨(Term.node.inj eq).2.1, (Term.node.inj eq).2.2⟩) same j below

theorem node_ne_empty {view : ℕ → Option ℕ} {height i j account : ℕ} (below : j / 2 ^ height = i)
    (here : view j = some (account + 1)) : free.nodeHash view height i ≠ free.emptyHashAtHeight height := by
  have empty : free.nodeHash (fun _ => none) height i = free.emptyHashAtHeight height :=
    TreeVersion.nodeHash_empty fun _ _ => rfl
  intro same
  have leaf := free_injective (same.trans empty.symm) below
  rw [here] at leaf
  cases leaf

theorem root_ne_empty {view : ℕ → Option ℕ} {i account : ℕ} (inside : i < 2 ^ LEDGER_DEPTH)
    (here : view i = some (account + 1)) :
    free.nodeHash view LEDGER_DEPTH 0 ≠ free.emptyHashAtHeight LEDGER_DEPTH :=
  node_ne_empty (div_eq_of_lt inside) here

def holding (i : ℕ) : MaskImpl ℕ ℕ Term :=
  (root (.create LEDGER_DEPTH)).set free (.fromIndex i LEDGER_DEPTH) 7

section
variable {i : ℕ} (inside : i < 2 ^ LEDGER_DEPTH)
include inside

theorem local_holding : Local free (Function.update (fun _ => none) i (some 7)) (holding i) := by
  have set := (local_create (V := free)).set (a := .fromIndex i LEDGER_DEPTH) rfl 7
  rwa [toIndex_fromIndex inside (by decide)] at set

theorem numAccounts_holding : (holding i).numAccounts = i + 1 := by
  show (Address.fromIndex i LEDGER_DEPTH).toIndex + 1 = i + 1
  rw [toIndex_fromIndex inside (by decide)]

theorem view_holding : (holding i).view = Function.update (fun _ => none) i (some 7) := by
  obtain ⟨db, eq, -, view⟩ := local_holding inside
  rw [eq]
  exact view

theorem answers_holding : (holding i).Answers free LEDGER_DEPTH (holding i).lastAccount := by
  obtain ⟨db, eq, sound, -⟩ := local_holding inside
  rw [eq]
  exact sound

end

/-! ## Soundness and completeness -/

/-- The ledger of the peers has accounts, unless the target is the hash of the empty ledger. -/
theorem Source.of_root (served : Served V m) (nonempty : target ≠ .field (V.emptyHashAtHeight LEDGER_DEPTH))
    (root : ∃ x m', target = .field x ∧ m.merkleRoot V = .ok (x, m')) : Source V m target := by
  obtain ⟨x, m', rfl, run⟩ := root
  obtain ⟨m'', run', -⟩ := merkleRoot_spec (by decide) (by decide) served.answers
  cases run.symm.trans run'
  refine ⟨served, rfl, pos_of_ne_zero fun zero => nonempty (congrArg LedgerHash.field ?_)⟩
  exact TreeVersion.nodeHash_empty fun j _ => view_eq_none served.answers (by omega)

/-- **A sync is sound and complete**, for a target that is not the hash of the empty ledger.
    A run that succeeds has the target as the root of the ledger, whatever the answers, when no
    local account lies outside the tree of the accepted size; and with peers that answer from
    one ledger with that root, without gaps and no smaller than the local one, no run stops, every
    answer is accepted, and success can always be reached. -/
theorem sync_correct (peer : P) (V : TreeVersion A I F) (target : LedgerHash F)
    (nonempty : target ≠ .field (V.emptyHashAtHeight LEDGER_DEPTH)) (db : Database A I F)
    (sound : db.Sound V LEDGER_DEPTH) :
    (∀ (events : List (Event P A F)) (s : Sync P A I F) (reached : LedgerHash F),
      Along (step V) (Within V db.getAtIndex) (start target (.root db)) events →
      run V (start target (.root db)) events = .ok s → s.state = .merkleTreeSyncSuccess reached →
      ∃ x ledger, target = .field x ∧ s.ledger.merkleRoot V = .ok (x, ledger)) ∧
    ∀ m : MaskImpl A I F, Served V m → (∃ x m', target = .field x ∧ m.merkleRoot V = .ok (x, m')) →
      (root db).numAccounts ≤ m.numAccounts →
      ∀ events : List (Event P A F), Along (step V) (Honest V m) (start target (.root db)) events →
        (∃ s, run V (start target (.root db)) events = .ok s) ∧
        Along (step V) (fun s e => e.delivered s = true → e.Accepted V s) (start target (.root db)) events ∧
        deliveries V (start target (.root db)) events ≤ 2 ^ 30 ∧
        ∃ more s, Along (step V) (Honest V m) (start target (.root db)) (events ++ more) ∧
          run V (start target (.root db)) (events ++ more) = .ok s ∧ s.state.Finished target := by
  refine ⟨fun events s reached within ran state => run_root sound nonempty within ran state, ?_⟩
  intro m served root fewer events honest
  have source := Source.of_root served nonempty root
  have first : Serving V m target (start target (.root db) : Sync P A I F) :=
    .counting ⟨db, rfl, sound, rfl⟩ fun j after =>
      view_eq_none (m := .root db) (V := V) sound (fewer.trans after)
  obtain ⟨s, ran, serving, less, accepted⟩ := first.run source honest
  have : Nonempty P := ⟨peer⟩
  obtain ⟨more, s', honest', rest, finished⟩ := serving.finish source
  refine ⟨⟨s, ran⟩, accepted, (le_add_right ..).trans less, more, s', honest.append fun s₁ ran₁ => ?_, ?_, finished⟩
  · cases ran.symm.trans ran₁
    exact honest'
  · rw [run, foldlM_append]
    rw [run] at ran
    rw [ran]
    exact rest

/-- A ledger with one account at its first position can be fetched from the empty one. -/
theorem sync_correct_one : ∃ (events : List (Event ℕ ℕ Term)) (s : Sync ℕ ℕ ℕ Term),
    run free (start (.field (free.nodeHash (holding 0).view LEDGER_DEPTH 0)) (.root (.create LEDGER_DEPTH))) events =
        .ok s ∧ s.state.Finished (.field (free.nodeHash (holding 0).view LEDGER_DEPTH 0)) := by
  have inside : 0 < 2 ^ LEDGER_DEPTH := by decide
  have served : Served free (holding 0) := by
    refine ⟨answers_holding inside, fun j before => ?_⟩
    rw [numAccounts_holding inside] at before
    rw [view_holding inside, lt_one_iff.1 before, Function.update_self]
    simp
  obtain ⟨m', root, -⟩ := merkleRoot_spec (by decide) (by decide) served.answers
  have nonempty : LedgerHash.field (free.nodeHash (holding 0).view LEDGER_DEPTH 0) ≠
      .field (free.emptyHashAtHeight LEDGER_DEPTH) := fun same =>
    root_ne_empty (i := 0) inside (by rw [view_holding inside, Function.update_self]) (LedgerHash.field.inj same)
  obtain ⟨-, -, -, more, s, -, ran, finished⟩ := (sync_correct 0 free _ nonempty (.create LEDGER_DEPTH)
    Database.sound_create).2 (holding 0) served ⟨_, m', rfl, root⟩ (zero_le _) [] trivial
  exact ⟨more, s, ran, finished⟩

/-! ## A target without accounts, and peers with an empty position -/

/-- The query for the node above all accounts is under way. -/
def queried (contents : LedgerHash F) (node : Address) : Pending ℕ F :=
  setAttempt (empty.insert node ⟨contents, empty.insert 0 .init⟩) node 0 (.pending 1)

theorem queryOf_queried (contents : LedgerHash F) (node : Address) : queryOf (queried contents node) 0 1 =
      some (node, ⟨contents, (empty.insert 0 .init).insert 0 (.pending 1)⟩) := by
  have entries : (queried contents node).entries =
      [(node, ⟨contents, (empty.insert 0 .init).insert 0 (.pending 1)⟩)] := by
    simp [queried, setAttempt, OrdMap.modify, OrdMap.mapValues, OrdMap.insert, empty]
  simp [queryOf, peerAddressQueryGet, entries, get_insert, PeerRpcState.rpcId, PeerRpcState.isPending]

theorem finish_queried (target contents : LedgerHash F) (node : Address) (st : PeerRpcState) :
    finish target ((empty.insert node contents).remove node)
      ((setAttempt (queried contents node) node 0 st).remove node) = .merkleTreeSyncSuccess target := by
  simp [finish, queried, setAttempt, OrdMap.modify, OrdMap.mapValues, OrdMap.insert, empty, OrdMap.remove,
    OrdMap.retain]

section
variable {count height : ℕ} {node : Address}

theorem run_asked (ledger : MaskImpl A I F)
    (accepted : completeNumAccountsTreeWithEmpties V contents count = .ok (some target))
    (tall : treeHeightForNumAccounts count = .ok height) (top : node = .first (LEDGER_DEPTH - height)) :
    run V (start target ledger) (asked count contents node) =
      .ok ⟨.merkleTreeSyncPending target ((empty.insert node contents).remove node) (queried contents node),
        ledger⟩ := by
  have waits : awaits ((empty.insert 0 .init).insert 0 (.pending 0) : OrdMap ℕ PeerRpcState) 0 0 = true := rfl
  subst top
  simp [run, asked, start, step, waits, numAccountsReceived, accepted, merkleTreeSyncPending, tall,
    get_insert, queried]

theorem run_answered {written ledger' : MaskImpl A I F} {hash root : F} {encoded : List (Option A)}
    (accepted : completeNumAccountsTreeWithEmpties V (.field hash) count = .ok (some target))
    (tall : treeHeightForNumAccounts count = .ok height) (top : node = .first (LEDGER_DEPTH - height))
    (nonempty : 0 < encoded.length) (set : accountsSet V node encoded ledger = .ok (hash, written))
    (computed : innerHash V .root written = .ok (root, ledger')) :
    run V (start target ledger) (asked count (.field hash) node ++ [.addressAnswer 0 1 (.childAccounts encoded)]) =
      .ok ⟨.merkleTreeSyncSuccess target, ledger'⟩ := by
  rw [run, foldlM_concat _ (run_asked ledger accepted tall top)]
  simp only [step, addressAnswer, queryOf_queried, childAccountsReceived, set, ok_bind, ne_eq, not_true_eq_false,
    if_false, computed, if_pos nonempty, finish_queried]
  rfl

end

/-- **The hash of the empty ledger as the target**: given `0` accounts, the sync ends with any
    account in the ledger. -/
theorem empty_target_run (V : TreeVersion A I F) (account : A) : ∃ ledger,
    run V (start (.field (V.emptyHashAtHeight LEDGER_DEPTH)) (.root (.create LEDGER_DEPTH)))
        (asked 0 (.field (V.hashLeaf account)) (.first LEDGER_DEPTH) ++
          [.addressAnswer 0 1 (.childAccounts [some account])]) =
      .ok ⟨.merkleTreeSyncSuccess (.field (V.emptyHashAtHeight LEDGER_DEPTH)), ledger⟩ ∧
    Local V (written (fun _ => none) 0 [account]) ledger := by
  have leaf : LEDGER_DEPTH - (first LEDGER_DEPTH).length = 0 := Nat.sub_self _
  obtain ⟨ledger', set, kept⟩ := (local_create (V := V)).accountsSet (a := .first LEDGER_DEPTH) (Nat.zero_mod _) le_rfl
    (mapM_map_some [account])
  rw [toIndex_first, zero_mul, leaf] at set kept
  obtain ⟨ledger, computed, kept'⟩ := kept.innerHash clean_root (zero_le _)
  have hash : hashAtAddr V (written (fun _ => none) 0 (List.take (2 ^ 0) [account])) (.first LEDGER_DEPTH) =
      V.hashLeaf account := by
    rw [hashAtAddr, toIndex_first, leaf]
    rfl
  rw [hash] at set
  exact ⟨ledger, run_answered rfl rfl rfl one_pos set computed, kept'⟩

theorem getChildAccounts_gap : getChildAccounts (.first 34) (holding 1) = some [7] := by
  have inside : 1 < 2 ^ LEDGER_DEPTH := by decide
  have leaves : ∀ i ∈ List.range 2, (holding 1).get (leafBelow (.first 34) LEDGER_DEPTH i) =
      Function.update (fun _ => none) 1 (some 7) i := by
    intro i mem
    rw [get_eq, leafBelow_toIndex (by decide) (mem_range.1 mem), toIndex_first, view_holding inside,
      zero_mul, zero_add]
  rw [getChildAccounts, (answers_holding inside).depth, if_neg (by decide)]
  have two : 2 ^ (LEDGER_DEPTH - (first 34).length) = 2 := rfl
  rw [two, filterMap_congr leaves]
  rfl

/-- The hash of the empty ledger as the target, for which a dishonest answer is accepted, and
    an honest ledger whose first position is empty, for which an honest answer is not. -/
theorem sync_fails : (∃ (events : List (Event ℕ ℕ Term)) (s : Sync ℕ ℕ ℕ Term),
      Along (step free) (Within free (Database.create LEDGER_DEPTH : Database ℕ ℕ Term).getAtIndex)
        (start (.field (free.emptyHashAtHeight LEDGER_DEPTH)) (.root (.create LEDGER_DEPTH))) events ∧
      run free (start (.field (free.emptyHashAtHeight LEDGER_DEPTH)) (.root (.create LEDGER_DEPTH))) events = .ok s ∧
      s.state = .merkleTreeSyncSuccess (.field (free.emptyHashAtHeight LEDGER_DEPTH)) ∧
      ∃ x ledger, s.ledger.merkleRoot free = .ok (x, ledger) ∧ x ≠ free.emptyHashAtHeight LEDGER_DEPTH) ∧
    ∃ count hash m', getNumAccounts free (holding 1) = .ok (some (count, hash), m') ∧
      ∃ address s q response,
        run free (start (.field (free.nodeHash (holding 1).view LEDGER_DEPTH 0)) (.root (.create LEDGER_DEPTH)))
          (asked count (.field hash) address) = .ok s ∧
        queryOf s.state.pendingAddresses 0 1 = some (address, q) ∧ AnswerOf free (holding 1) address response ∧
        ¬ SnarkedSync.Usable free s.ledger address q.expectedHash response := by
  have inside : 1 < 2 ^ LEDGER_DEPTH := by decide
  constructor
  · obtain ⟨ledger, ran, db, rfl, sound, view⟩ := empty_target_run free 7
    obtain ⟨ledger', root, -⟩ := merkleRoot_spec (m := .root db) (V := free) (by decide) (by decide) sound
    refine ⟨_, _, .of_forall (fun _ _ _ _ _ _ _ _ _ => rfl) _ _, ran, rfl, _, ledger', root, ?_⟩
    exact root_ne_empty (i := 0) (by decide) (congrFun view 0)
  · obtain ⟨height, m', given, -, tall, accepted⟩ := getNumAccounts_accepted (answers_holding inside)
      (by rw [numAccounts_holding inside]; decide)
    have one : height = 1 := by
      rw [numAccounts_holding inside] at tall
      cases tall
      rfl
    subst one
    refine ⟨_, _, m', given, .first 34, _, _, .childAccounts [some 7], run_asked _ accepted tall rfl,
      queryOf_queried .., ⟨[7], getChildAccounts_gap, rfl⟩, ?_⟩
    rintro ⟨-, hash, ledger, set, expected⟩
    obtain ⟨ledger', set', -⟩ := (local_create (V := free)).accountsSet (a := .first 34) (Nat.zero_mod _) (by decide)
      (mapM_map_some [7])
    cases set.symm.trans set'
    rw [toIndex_first, hashAtAddr, toIndex_first] at expected
    have leaf := free_injective (j := 0) (LedgerHash.field.inj expected) (by decide)
    rw [view_holding inside] at leaf
    cases leaf

end MinaRust.SnarkedSync
