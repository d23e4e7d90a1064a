/-
  The address phase with honest peers.

  The peers answer from one ledger without empty positions before its last account
  (`Honest`).  The local ledger has no account after that one.
-/
import MinaRust.SnarkedSync.Retries
import MinaRust.SnarkedSync.Sound

set_option linter.unusedSectionVars false

namespace MinaRust.SnarkedSync

open Ledger List OrdMap Address Nat

variable {P A I F : Type} [LinearOrder P] [DecidableEq I] [DecidableEq F]
  {V : TreeVersion A I F} {m : MaskImpl A I F}
  {s s' : Sync P A I F}
  {e : Event P A F} {target contents : LedgerHash F} {queue : Queue F} {pending : Pending P F}
  {address : Address} {peer : P} {rpcId : ℕ} {q : LedgerAddressQueryPending P F}
  {view : ℕ → Option A} {ledger : MaskImpl A I F}
  {response : PeerLedgerQueryResponse A F}

/-! ## Honest answers -/

/-- What a node with the ledger `m` answers to the query of an address. -/
def AnswerOf (V : TreeVersion A I F) (m : MaskImpl A I F) (address : Address)
    (response : PeerLedgerQueryResponse A F) : Prop :=
  if address.length < LEDGER_DEPTH - ACCOUNT_SUBTREE_HEIGHT then
    ∃ l r m', getChildHashes V address m = .ok ((l, r), m') ∧ response = .childHashes (.field l) (.field r)
  else ∃ accounts, getChildAccounts address m = some accounts ∧ response = .childAccounts (accounts.map some)

/-- Answers to requests under way are those of a node with the ledger `m`, and requests get
    new ids. -/
structure Honest (V : TreeVersion A I F) (m : MaskImpl A I F)
    (s : Sync P A I F) (e : Event P A F) : Prop where
  count : ∀ peer rpcId response target attempts, e = .numAccountsAnswer peer rpcId response →
    s.state = .numAccountsPending target attempts → awaits attempts peer rpcId = true →
    ∃ count hash m', getNumAccounts V m = .ok (some (count, hash), m') ∧ response = .numAccounts count (.field hash)
  answer : ∀ peer rpcId response address q, e = .addressAnswer peer rpcId response →
    queryOf s.state.pendingAddresses peer rpcId = some (address, q) → AnswerOf V m address response
  fresh : ∀ address peer rpcId a q, e = .addressPending address peer rpcId →
    s.state.pendingAddresses.get a = some q → (q.attempts.get peer).bind PeerRpcState.rpcId ≠ some rpcId

def Event.delivered (s : Sync P A I F) (e : Event P A F) : Bool :=
  match s.state, e with
  | .numAccountsPending _ attempts, .numAccountsAnswer peer rpcId _ => awaits attempts peer rpcId
  | .merkleTreeSyncPending _ _ pending, .addressAnswer peer rpcId _ => (queryOf pending peer rpcId).isSome
  | _, _ => false

def Event.Accepted (V : TreeVersion A I F) (s : Sync P A I F) (e : Event P A F) : Prop :=
  (∃ count contents, Accepts V s e count contents) ∨
    ∃ peer rpcId response address q, e = .addressAnswer peer rpcId response ∧
      queryOf s.state.pendingAddresses peer rpcId = some (address, q) ∧
      SnarkedSync.Usable V s.ledger address q.expectedHash response

def deliveries (V : TreeVersion A I F) : Sync P A I F → List (Event P A F) → ℕ
  | _, [] => 0
  | s, e :: events => (if e.delivered s then 1 else 0) +
      match step V s e with
      | .ok s' => deliveries V s' events
      | .error _ => 0

/-! ## The answers still to come -/

def rounds (a : Address) : ℕ := 2 ^ (30 - min a.length 29) - 1

theorem one_le_rounds (a : Address) : 1 ≤ rounds a := by
  have le : 2 ^ 1 ≤ 2 ^ (30 - min a.length 29) := Nat.pow_le_pow_right (by decide) (by omega)
  unfold rounds
  omega

theorem rounds_children (shallow : address.length < 29) :
    rounds address.childLeft + rounds address.childRight + 1 = rounds address := by
  have left : address.childLeft.length = address.length + 1 := rfl
  have right : address.childRight.length = address.length + 1 := rfl
  have half : 30 - min address.length 29 = (30 - min (address.length + 1) 29) + 1 := by omega
  have positive : 0 < 2 ^ (30 - min (address.length + 1) 29) := Nat.two_pow_pos _
  unfold rounds
  rw [left, right, half]
  omega

theorem rounds_lt (a : Address) : rounds a < 2 ^ 30 := by
  have le : 2 ^ (30 - min a.length 29) ≤ 2 ^ 30 := Nat.pow_le_pow_right (by decide) (by omega)
  unfold rounds
  omega

def SnarkedState.remaining : SnarkedState P F → ℕ
  | .numAccountsPending _ _ => 2 ^ 30
  | .merkleTreeSyncPending _ queue pending => queue.weight rounds + pending.weight rounds
  | _ => 0

theorem weight_enqueue (queue : Queue F) (address : Address) (hash previous : LedgerHash F) :
    (enqueue queue address hash previous).weight rounds ≤ queue.weight rounds + rounds address := by
  unfold enqueue
  split
  · exact weight_insert_le ..
  · exact Nat.le_add_right ..

/-! ## Requests -/

def Distinct (pending : Pending P F) : Prop :=
  ∀ a a' q q' peer rpcId, pending.get a = some q → pending.get a' = some q' →
    (q.attempts.get peer).bind PeerRpcState.rpcId = some rpcId →
    (q'.attempts.get peer).bind PeerRpcState.rpcId = some rpcId → a = a'

variable {pending' : Pending P F}

theorem Distinct.of_get (h : Distinct pending)
    (get : ∀ a, pending'.get a = if a = address then some q else pending.get a)
    (ids : ∀ peer rpcId, (q.attempts.get peer).bind PeerRpcState.rpcId = some rpcId → ∀ a q', a ≠ address → pending.get a = some q' → (q'.attempts.get peer).bind PeerRpcState.rpcId ≠ some rpcId) :
    Distinct pending' := by
  intro a a' q₁ q₂ peer rpcId found found' id id'
  rw [get] at found found'
  split at found <;> split at found'
  · next eq eq' => exact eq.trans eq'.symm
  · next ne =>
    cases found
    exact absurd id' (ids peer rpcId id a' q₂ ne found')
  · next ne _ =>
    cases found'
    exact absurd id (ids peer rpcId id' a q₁ ne found)
  · exact h a a' q₁ q₂ peer rpcId found found' id id'

theorem Distinct.remove (h : Distinct pending) (sub : ∀ a q, pending'.get a = some q → pending.get a = some q) :
    Distinct pending' :=
  fun a a' q q' peer rpcId found found' => h a a' q q' peer rpcId (sub a q found) (sub a' q' found')

theorem queryOf_of_pending (h : Distinct pending) (found : pending.get address = some q)
    (waits : q.attempts.get peer = some (.pending rpcId)) : queryOf pending peer rpcId = some (address, q) := by
  have id : (q.attempts.get peer).bind PeerRpcState.rpcId = some rpcId := by rw [waits]; rfl
  have first : peerAddressQueryGet pending peer rpcId = some (address, q) := by
    unfold peerAddressQueryGet
    cases here : pending.entries.find? fun e => decide ((e.2.attempts.get peer).bind PeerRpcState.rpcId = some rpcId) with
    | none =>
      have all := List.find?_eq_none.1 here (address, q) (get_eq_some.1 found)
      simp [id] at all
    | some e =>
      have listed : pending.get e.1 = some e.2 := get_eq_some.2 (mem_of_find?_eq_some here)
      have same : e.1 = address := h e.1 address e.2 q peer rpcId listed found (by simpa using List.find?_some here) id
      cases same
      cases found.symm.trans listed
      rfl
  rw [queryOf, first, Option.filter_some, waits]
  rfl

theorem exists_fresh (pending : Pending P F) (peer : P) :
    ∃ rpcId, ∀ a q, pending.get a = some q → (q.attempts.get peer).bind PeerRpcState.rpcId ≠ some rpcId := by
  obtain ⟨rpcId, new⟩ := Infinite.exists_notMem_finset
    (pending.entries.filterMap fun e => (e.2.attempts.get peer).bind PeerRpcState.rpcId).toFinset
  refine ⟨rpcId, fun a q found id => new ?_⟩
  rw [mem_toFinset, mem_filterMap]
  exact ⟨(a, q), get_eq_some.1 found, id⟩

/-! ## The address phase -/

/-- An address of the frontier: it should get the hash of the ledger `m`, which has accounts
    below it. -/
structure Wanted (V : TreeVersion A I F) (m : MaskImpl A I F) (a : Address)
    (expected : LedgerHash F) : Prop where
  clean : a.Clean
  short : a.length ≤ LEDGER_DEPTH
  hash : expected = .field (hashAtAddr V m.view a)
  inside : a.toIndex * 2 ^ (LEDGER_DEPTH - a.length) < m.numAccounts

/-- The address phase with honest peers. -/
structure Fetch (V : TreeVersion A I F) (m : MaskImpl A I F)
    (view : ℕ → Option A) (ledger : MaskImpl A I F) (queue : Queue F)
    (pending : Pending P F) : Prop where
  kept : Local V view ledger
  fewer : ∀ j, m.numAccounts ≤ j → view j = none
  queued : ∀ a e, queue.get a = some e → Wanted V m a e
  sent : ∀ a q, pending.get a = some q → Wanted V m a q.expectedHash
  distinct : Distinct pending

theorem wanted_child (ok : m.Answers V LEDGER_DEPTH m.lastAccount) (fewer : ∀ j, m.numAccounts ≤ j → view j = none)
    (clean : address.Clean) (short : address.length ≤ LEDGER_DEPTH)
    (differs : hashAtAddr V m.view address ≠ hashAtAddr V view address) :
    Wanted V m address (.field (hashAtAddr V m.view address)) := by
  refine ⟨clean, short, rfl, not_le.1 fun after => differs (hashAtAddr_congr fun j below => ?_)⟩
  have positive : 0 < 2 ^ (LEDGER_DEPTH - address.length) := Nat.two_pow_pos _
  rw [Below, Nat.div_eq_iff positive] at below
  rw [view_eq_none ok (by omega), fewer j (by omega)]

theorem AnswerOf.hashes (answer : AnswerOf V m address response) (ok : m.Answers V LEDGER_DEPTH m.lastAccount)
    (clean : address.Clean) (shallow : address.length < LEDGER_DEPTH - ACCOUNT_SUBTREE_HEIGHT) :
    response = .childHashes (.field (hashAtAddr V m.view address.childLeft))
      (.field (hashAtAddr V m.view address.childRight)) := by
  rw [AnswerOf, if_pos shallow] at answer
  obtain ⟨l, r, m', run, rfl⟩ := answer
  obtain ⟨m'', run'⟩ := getChildHashes_spec ok clean (shallow.trans (by decide))
  cases run.symm.trans run'
  rfl

theorem AnswerOf.accounts (answer : AnswerOf V m address response)
    (deep : ¬ address.length < LEDGER_DEPTH - ACCOUNT_SUBTREE_HEIGHT) :
    ∃ accounts, getChildAccounts address m = some accounts ∧ response = .childAccounts (accounts.map some) := by
  rwa [AnswerOf, if_neg deep] at answer

/-- Honest accounts, written below an address, give the leaves of the ledger `m` there. -/
theorem Fetch.write (h : Fetch V m view ledger queue pending) (served : Served V m)
    {expected : LedgerHash F} (wanted : Wanted V m address expected) {accounts : List A}
    (answer : getChildAccounts address m = some accounts) :
    0 < accounts.length ∧ ∃ view' ledger',
      accountsSet V address (accounts.map some) ledger = .ok (hashAtAddr V m.view address, ledger') ∧
      Local V view' ledger' ∧ ∀ j, m.numAccounts ≤ j → view' j = none := by
  obtain ⟨accounts', answer', nonempty, fit, entries⟩ :=
    getChildAccounts_spec served wanted.short wanted.inside
  cases answer.symm.trans answer'
  obtain ⟨ledger', set, kept⟩ := h.kept.accountsSet wanted.clean wanted.short (mapM_map_some accounts)
  rw [take_of_length_le fit] at set kept
  have below := fun j => written_below (j := j) served entries h.fewer
  refine ⟨nonempty, _, ledger', ?_, kept, fun j after => ?_⟩
  · rw [set, hashAtAddr_congr below]
  · by_cases inside : Below address j
    · rw [below j inside, view_eq_none served.answers after]
    · have positive : 0 < 2 ^ (LEDGER_DEPTH - address.length) := Nat.two_pow_pos _
      rw [Below, Nat.div_eq_iff positive] at inside
      rw [written, if_neg (by omega), h.fewer j after]

theorem Fetch.usable (h : Fetch V m view ledger queue pending) (served : Served V m)
    (found : pending.get address = some q) (answer : AnswerOf V m address response) :
    Usable V ledger address q.expectedHash response := by
  have wanted := h.sent address q found
  by_cases shallow : address.length < LEDGER_DEPTH - ACCOUNT_SUBTREE_HEIGHT
  · rw [answer.hashes served.answers wanted.clean shallow]
    refine ⟨shallow, _, _, rfl, rfl, ?_⟩
    rw [wanted.hash, hashAtAddr_node (shallow.trans (by decide)) wanted.clean]
  · obtain ⟨accounts, given, rfl⟩ := answer.accounts shallow
    obtain ⟨nonempty, view', ledger', set, -⟩ := h.write served wanted given
    exact ⟨by rwa [length_map], _, ledger', set, wanted.hash⟩

theorem Fetch.total (h : Fetch V m view s.ledger queue pending) (served : Served V m)
    (answer : ∀ address q, queryOf pending peer rpcId = some (address, q) → AnswerOf V m address response) :
    ∃ s', addressAnswer V s target queue pending peer rpcId response = .ok s' := by
  unfold addressAnswer
  cases found : queryOf pending peer rpcId with
  | none => exact ⟨_, rfl⟩
  | some e =>
    obtain ⟨address, q⟩ := e
    have stored := (queryOf_eq_some found).1
    have wanted := h.sent address q stored
    have honest := answer address q found
    dsimp only
    by_cases shallow : address.length < LEDGER_DEPTH - ACCOUNT_SUBTREE_HEIGHT
    · rw [honest.hashes served.answers wanted.clean shallow]
      obtain ⟨ledger', run, -⟩ := h.kept.childHashesGet wanted.clean (shallow.trans (by decide))
      unfold childHashesReceived
      rw [run]
      dsimp only
      split
      · exact ⟨_, rfl⟩
      · split
        · split <;> exact ⟨_, rfl⟩
        · exact ⟨_, rfl⟩
    · obtain ⟨accounts, given, rfl⟩ := honest.accounts shallow
      obtain ⟨-, view', ledger', set, kept, -⟩ := h.write served wanted given
      obtain ⟨ledger'', root, -⟩ := kept.innerHash clean_root (zero_le _)
      dsimp only
      unfold childAccountsReceived
      rw [set, ok_bind]
      dsimp only
      split
      · exact ⟨_, rfl⟩
      · rw [root, ok_bind]
        split <;> exact ⟨_, rfl⟩

theorem delivered_fetching (phase : s.state = .merkleTreeSyncPending target queue pending) :
    e.delivered s = true ↔ ∃ peer rpcId response address q, e = .addressAnswer peer rpcId response ∧
      queryOf pending peer rpcId = some (address, q) := by
  unfold Event.delivered
  rw [phase]
  cases e with
  | addressAnswer peer rpcId response =>
    simp only [Option.isSome_iff_exists, Prod.exists]
    constructor
    · rintro ⟨address, q, found⟩
      exact ⟨peer, rpcId, response, address, q, rfl, found⟩
    · rintro ⟨_, _, _, address, q, same, found⟩
      cases same
      exact ⟨address, q, found⟩
  | _ => simp

theorem get_of_removed {st : PeerRpcState} {a : Address}
    (found : ((setAttempt pending address peer st).remove address).get a = some q) : pending.get a = some q := by
  rw [remove_setAttempt, get_remove] at found
  split at found
  · cases found
  · exact found

namespace Fetch

theorem sent_query (h : Fetch V m view ledger queue pending) {expected : LedgerHash F}
    (queued : queue.get address = some expected) (peer : P) :
    Fetch V m view ledger (queue.remove address)
      (pending.insert address ⟨expected, empty.insert peer .init⟩) := by
  have get := get_insert pending address (⟨expected, empty.insert peer .init⟩)
  refine ⟨h.kept, h.fewer, fun a e found => ?_, fun a q found => ?_, h.distinct.of_get get ?_⟩
  · rw [get_remove] at found
    split at found
    · cases found
    · exact h.queued a e found
  · rw [get] at found
    split at found
    · next eq =>
      cases found
      exact eq ▸ h.queued address expected queued
    · exact h.sent a q found
  · intro peer' rpcId id
    rw [get_insert] at id
    split at id <;> cases id

theorem attempt (h : Fetch V m view ledger queue pending) {st : PeerRpcState}
    (found : pending.get address = some q) (progress : Progress q peer st)
    (fresh : ∀ rpcId, st = .pending rpcId → ∀ a q', pending.get a = some q' → (q'.attempts.get peer).bind PeerRpcState.rpcId ≠ some rpcId) :
    Fetch V m view ledger queue (setAttempt pending address peer st) := by
  have get := get_setAttempt_of_found peer st found
  refine ⟨h.kept, h.fewer, h.queued, fun a q' found' => ?_, h.distinct.of_get get ?_⟩
  · rw [get] at found'
    split at found'
    · next eq =>
      cases found'
      exact eq ▸ h.sent address q found
    · exact h.sent a q' found'
  · intro peer' rpcId id a q' ne found' id'
    rw [get_insert] at id
    split at id
    · next eq =>
      subst eq
      cases progress with
      | retry errors => cases id
      | sent waits =>
        cases id
        exact fresh _ rfl a q' found' id'
      | failed waits =>
        cases id
        exact ne (h.distinct a address q' q peer' _ found' found id' (by rw [waits]; rfl))
    · exact ne (h.distinct a address q' q peer' rpcId found' found id' id)

variable {ledger' : MaskImpl A I F}

theorem hashes (h : Fetch V m view ledger queue pending) (served : Served V m)
    (found : pending.get address = some q) (shallow : address.length < LEDGER_DEPTH - ACCOUNT_SUBTREE_HEIGHT)
    {l₀ r₀ : F} (before : childHashesGet V address ledger = .ok ((l₀, r₀), ledger')) (peer : P) (rpcId : ℕ) :
    Fetch V m view ledger'
      (enqueue (enqueue queue address.childLeft (.field (hashAtAddr V m.view address.childLeft)) (.field l₀))
        address.childRight (.field (hashAtAddr V m.view address.childRight)) (.field r₀))
      ((setAttempt pending address peer (.success rpcId)).remove address) := by
  have clean := (h.sent address q found).clean
  have short : address.length < LEDGER_DEPTH := shallow.trans (by decide)
  have bits : address.length < nbits := short.trans (by decide)
  obtain ⟨ledger'', run, kept⟩ := h.kept.childHashesGet clean short
  cases before.symm.trans run
  refine ⟨kept, h.fewer, fun a e queued => ?_, fun a q found => h.sent a q (get_of_removed found),
    h.distinct.remove fun a q => get_of_removed⟩
  rw [get_enqueue, get_enqueue] at queued
  split at queued
  · next isRight =>
    cases queued
    rw [isRight.1]
    exact wanted_child served.answers h.fewer (toIndex_childRight bits clean).2 short
      fun same => isRight.2 (congrArg LedgerHash.field same)
  · split at queued
    · next isLeft =>
      cases queued
      rw [isLeft.1]
      exact wanted_child served.answers h.fewer (toIndex_childLeft bits clean).2 short
        fun same => isLeft.2 (congrArg LedgerHash.field same)
    · exact h.queued a e queued

theorem accounts (h : Fetch V m view ledger queue pending) (served : Served V m)
    (found : pending.get address = some q) {accounts : List A}
    (answer : getChildAccounts address m = some accounts) {hash root : F} {written : MaskImpl A I F}
    (set : accountsSet V address (accounts.map some) ledger = .ok (hash, written))
    (computed : innerHash V .root written = .ok (root, ledger')) (peer : P) (rpcId : ℕ) :
    ∃ view', Fetch V m view' ledger' queue ((setAttempt pending address peer (.success rpcId)).remove address) := by
  obtain ⟨-, view', written', set', kept, fewer⟩ := h.write served (h.sent address q found) answer
  cases set.symm.trans set'
  exact ⟨view', (kept.innerHash_ok clean_root (zero_le _) computed).2, fewer, h.queued,
    fun a q found => h.sent a q (get_of_removed found), h.distinct.remove fun a q => get_of_removed⟩

theorem weight_removed (found : pending.get address = some q) (peer : P) (st : PeerRpcState) :
    ((setAttempt pending address peer st).remove address).weight rounds + rounds address ≤ pending.weight rounds := by
  have present : (setAttempt pending address peer st).get address ≠ none := by
    rw [get_setAttempt_of_found peer st found]
    simp
  exact (weight_remove_add_le rounds present).trans_eq (weight_modify ..)

theorem change (h : Fetch V m view s.ledger queue pending) (served : Served V m)
    (phase : s.state = .merkleTreeSyncPending target queue pending)
    (unfinished : ¬ (queue.entries = [] ∧ pending.entries = [])) (honest : Honest V m s e)
    (change : Change V s target queue pending e s') :
    ∃ view' queue' pending', Fetch V m view' s'.ledger queue' pending' ∧
      (s'.state = .merkleTreeSyncPending target queue' pending' ∧ ¬ (queue'.entries = [] ∧ pending'.entries = []) ∨
        s'.state = finish target queue' pending') ∧
      queue'.weight rounds + pending'.weight rounds + (if e.delivered s then 1 else 0) ≤
        queue.weight rounds + pending.weight rounds := by
  have addresses : s.state.pendingAddresses = pending := by rw [phase]; rfl
  cases change with
  | nothing e quiet =>
    have none : ¬ e.delivered s = true := by
      rw [delivered_fetching phase]
      rintro ⟨peer, rpcId, response, address, q, same, found⟩
      rw [quiet peer rpcId response same] at found
      cases found
    exact ⟨view, queue, pending, h, .inl ⟨phase, unfinished⟩, by simp [none]⟩
  | sent address peer expected queued =>
    have none : ¬ (Event.addressInit address peer).delivered s = true := by
      rw [delivered_fetching phase]
      rintro ⟨_, _, _, _, _, same, -⟩
      cases same
    have less := weight_remove_add_le rounds (m := queue) (k := address) (by simp [queued])
    have more := weight_insert_le rounds pending address ⟨expected, empty.insert peer .init⟩
    refine ⟨view, _, _, h.sent_query queued peer, .inl ⟨rfl, fun empty => ?_⟩, ?_⟩
    · exact absurd empty.2 (by simp [OrdMap.insert])
    · rw [if_neg none]
      omega
  | attempt e address q peer st noAnswer named found progress =>
    have none : ¬ e.delivered s = true := by
      rw [delivered_fetching phase]
      rintro ⟨peer, rpcId, response, _, _, same, -⟩
      exact noAnswer peer rpcId response same
    have fresh : ∀ rpcId, st = .pending rpcId → ∀ a q', pending.get a = some q' →
        (q'.attempts.get peer).bind PeerRpcState.rpcId ≠ some rpcId := fun rpcId same a q' stored =>
      honest.fresh address peer rpcId a q' (named rpcId same) (by rw [addresses]; exact stored)
    refine ⟨view, _, _, h.attempt found progress fresh, .inl ⟨rfl, fun empty => ?_⟩, ?_⟩
    · have stored := get_setAttempt_of_found peer st found address
      rw [if_pos rfl, get_eq_some, empty.2] at stored
      cases stored
    · rw [if_neg none, setAttempt, weight_modify]
      omega
  | unusable peer rpcId response address q ledger found refused touches =>
    refine absurd (h.usable served (queryOf_eq_some found).1 ?_) refused
    exact honest.answer peer rpcId response address q rfl (by rw [addresses]; exact found)
  | hashes peer rpcId address q l r l₀ r₀ ledger found usable before =>
    have stored := (queryOf_eq_some found).1
    have answer := honest.answer peer rpcId _ address q rfl (by rw [addresses]; exact found)
    cases answer.hashes served.answers (h.sent address q stored).clean usable.1
    refine ⟨view, _, _, h.hashes served stored usable.1 before peer rpcId, .inr rfl, ?_⟩
    have left := weight_enqueue queue address.childLeft (.field (hashAtAddr V m.view address.childLeft)) (.field l₀)
    have right := weight_enqueue
      (enqueue queue address.childLeft (.field (hashAtAddr V m.view address.childLeft)) (.field l₀))
      address.childRight (.field (hashAtAddr V m.view address.childRight)) (.field r₀)
    have removed := weight_removed stored peer (.success rpcId)
    have children := rounds_children usable.1
    split <;> omega
  | accounts peer rpcId address q encoded hash root written ledger found nonempty set matched computed =>
    have stored := (queryOf_eq_some found).1
    have answer := honest.answer peer rpcId _ address q rfl (by rw [addresses]; exact found)
    have deep : ¬ address.length < LEDGER_DEPTH - ACCOUNT_SUBTREE_HEIGHT := fun shallow => by
      cases answer.hashes served.answers (h.sent address q stored).clean shallow
    obtain ⟨accounts, given, same⟩ := answer.accounts deep
    cases same
    obtain ⟨view', h'⟩ := h.accounts served stored given set computed peer rpcId
    refine ⟨view', _, _, h', .inr rfl, ?_⟩
    have removed := weight_removed stored peer (.success rpcId)
    have one := one_le_rounds address
    split <;> omega

end Fetch

end MinaRust.SnarkedSync
