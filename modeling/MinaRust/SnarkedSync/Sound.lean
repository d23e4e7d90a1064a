/-
  A sync that ends has the target.

  The addresses that are queued or under way, with the hashes that they should get, are a
  sound frontier all along: accepted hashes split a node, accepted accounts fill it, and
  accounts that were not accepted have been written below a node of the frontier.
-/
import MinaRust.Lib.Frontier
import MinaRust.SnarkedSync.Steps

set_option linter.unusedSectionVars false

namespace MinaRust.SnarkedSync

open Ledger OrdMap Function Address Nat

variable {P A I F : Type} [LinearOrder P] [DecidableEq I] [DecidableEq F]
  {V : TreeVersion A I F} {s s' : Sync P A I F}
  {e : Event P A F} {target contents : LedgerHash F} {queue : Queue F} {pending : Pending P F}
  {address top : Address} {peer : P} {rpcId : ℕ} {q : LedgerAddressQueryPending P F}
  {view : ℕ → Option A}

/-! ## The tree of addresses -/

def tree (V : TreeVersion A I F) : HashedTree Address ℕ (Option A) (LedgerHash F) where
  leaves a := {j | Below a j}
  hash view a := .field (hashAtAddr V view a)
  hash_congr same := congrArg LedgerHash.field (hashAtAddr_congr same)

theorem below_first (a : Address) : Below a (a.toIndex * 2 ^ (LEDGER_DEPTH - a.length)) :=
  Nat.mul_div_cancel _ (Nat.two_pow_pos _)

theorem tree_children (short : address.length < LEDGER_DEPTH) (clean : address.Clean) :
    (tree V).Children address address.childLeft address.childRight where
  union := Set.ext (below_child short clean)
  apart := Set.disjoint_left.2 fun _ left => not_below_both short clean left
  left := ⟨_, below_first _⟩
  right := ⟨_, below_first _⟩

/-! ## The frontier -/

def frontier (queue : Queue F) (pending : Pending P F) (a : Address) : Option (LedgerHash F) :=
  (queue.get a).or ((pending.get a).map LedgerAddressQueryPending.expectedHash)

theorem frontier_of_pending (once : queue.get address = none) (found : pending.get address = some q) :
    frontier queue pending address = some q.expectedHash := by
  simp [frontier, once, found]

theorem frontier_eq_none : frontier queue pending address = none ↔
    queue.get address = none ∧ pending.get address = none := by
  simp [frontier]

theorem frontier_sent {expected : LedgerHash F} {attempts : OrdMap P PeerRpcState}
    (queued : queue.get address = some expected) :
    frontier (queue.remove address) (pending.insert address ⟨expected, attempts⟩) = frontier queue pending := by
  funext a
  unfold frontier
  rw [get_remove, get_insert]
  split
  · next eq => simp [eq, queued]
  · rfl

theorem frontier_setAttempt (st : PeerRpcState) :
    frontier queue (setAttempt pending address peer st) = frontier queue pending := by
  funext a
  unfold frontier
  rw [get_setAttempt]
  split
  · cases pending.get a <;> rfl
  · rfl

/-- A sync in the address phase: `contents` is the hash that `top` should get. -/
structure Fetching (V : TreeVersion A I F) (top : Address) (contents : LedgerHash F)
    (view : ℕ → Option A) (ledger : MaskImpl A I F) (queue : Queue F)
    (pending : Pending P F) : Prop where
  ledger : Local V view ledger
  sound : (tree V).Frontier top contents view (frontier queue pending)
  once : ∀ a, queue.get a ≠ none → pending.get a = none
  proper : ∀ a, frontier queue pending a ≠ none → a.Clean ∧ a.length ≤ LEDGER_DEPTH

theorem get_enqueue (hash previous : LedgerHash F) (a : Address) :
    (enqueue queue address hash previous).get a =
      if a = address ∧ hash ≠ previous then some hash else queue.get a := by
  unfold enqueue
  split
  · next ne => rw [get_insert]; simp [ne]
  · next eq => simp [not_not.1 eq]

theorem frontier_hashes (l r : F) (peer : P) (rpcId : ℕ)
    (h : (tree V).Frontier top contents view (frontier queue pending)) (unqueued : queue.get address = none)
    (found : pending.get address = some q) (short : address.length < LEDGER_DEPTH) (clean : address.Clean) :
    frontier (enqueue (enqueue queue address.childLeft (.field l) (.field (hashAtAddr V view address.childLeft)))
        address.childRight (.field r) (.field (hashAtAddr V view address.childRight)))
        ((setAttempt pending address peer (.success rpcId)).remove address) =
      (tree V).split view (frontier queue pending) address address.childLeft address.childRight
        (.field l) (.field r) := by
  have c := tree_children (V := V) short clean
  have listed : frontier queue pending address ≠ none := by simp [frontier_of_pending unqueued found]
  obtain ⟨left, left'⟩ := frontier_eq_none.1 (h.left_free listed c)
  obtain ⟨right, right'⟩ := frontier_eq_none.1 (h.right_free listed c)
  funext a
  unfold HashedTree.split
  by_cases isLeft : a = address.childLeft
  · subst isLeft
    simp [frontier, get_enqueue, get_remove, get_setAttempt, c.ne, c.left_ne, left, left', tree, eq_comm]
  by_cases isRight : a = address.childRight
  · subst isRight
    simp [frontier, get_enqueue, get_remove, get_setAttempt, c.ne.symm, c.symm.left_ne, right, right', tree,
      eq_comm]
  by_cases same : a = address
  · subst same
    simp [frontier, get_enqueue, get_remove, isLeft, isRight, unqueued]
  · simp [frontier, get_enqueue, get_remove, get_setAttempt, isLeft, isRight, same]

theorem frontier_accounts (pending : Pending P F) (peer : P) (rpcId : ℕ) (unqueued : queue.get address = none) :
    frontier queue ((setAttempt pending address peer (.success rpcId)).remove address) =
      Function.update (frontier queue pending) address none := by
  funext a
  by_cases same : a = address
  · subst same
    simp [frontier, get_remove, unqueued]
  · simp [frontier, get_remove, get_setAttempt, same]

namespace Fetching

variable {ledger ledger' : MaskImpl A I F} {queue' : Queue F} {pending' : Pending P F}

variable (h : Fetching V top contents view ledger queue pending)
include h

theorem unqueued (found : pending.get address = some q) :
    queue.get address = none := by
  by_contra queued
  rw [h.once address queued] at found
  cases found

theorem listed (found : pending.get address = some q) :
    frontier queue pending address = some q.expectedHash :=
  frontier_of_pending (h.unqueued found) found

theorem properAt (found : pending.get address = some q) :
    address.Clean ∧ address.length ≤ LEDGER_DEPTH :=
  h.proper address (by simp [h.listed found])

theorem outside (found : pending.get address = some q)
    {j : ℕ} (out : ¬ Below top j) : ¬ Below address j := fun below =>
  out (h.sound.within (by simp [h.listed found]) below)

theorem requeue
    (same : frontier queue' pending' = frontier queue pending)
    (once : ∀ a, queue'.get a ≠ none → pending'.get a = none) :
    Fetching V top contents view ledger queue' pending' :=
  ⟨h.ledger, same ▸ h.sound, once, same ▸ h.proper⟩

theorem setAttempt (address : Address) (peer : P)
    (st : PeerRpcState) : Fetching V top contents view ledger queue (SnarkedSync.setAttempt pending address peer st) := by
  refine h.requeue (frontier_setAttempt st) fun a queued => ?_
  rw [get_setAttempt, h.once a queued]
  split <;> rfl

theorem sent {expected : LedgerHash F}
    (queued : queue.get address = some expected) (peer : P) :
    Fetching V top contents view ledger (queue.remove address)
      (pending.insert address ⟨expected, empty.insert peer .init⟩) := by
  refine h.requeue (frontier_sent queued) fun a left => ?_
  rw [get_remove] at left
  rw [get_insert]
  split at left
  · exact absurd rfl left
  · next ne => rw [if_neg ne, h.once a left]

theorem touched (found : pending.get address = some q)
    (touches : Touches V address ledger ledger') :
    ∃ view', Fetching V top contents view' ledger' queue pending ∧ ∀ j, ¬ Below address j → view' j = view j := by
  obtain ⟨clean, short⟩ := h.properAt found
  rcases touches with rfl | ⟨accounts, hash, written, set, after⟩
  · exact ⟨view, h, fun _ _ => rfl⟩
  · obtain ⟨view', h', -, same⟩ := h.ledger.accountsSet_ok clean short set
    have kept : Local V view' ledger' := by
      rcases after with rfl | ⟨root, computed⟩
      · exact h'
      · exact (h'.innerHash_ok clean_root (zero_le _) computed).2
    have listed : frontier queue pending address ≠ none := by simp [h.listed found]
    exact ⟨view', ⟨kept, h.sound.write listed same, h.once, h.proper⟩, same⟩

theorem hashes {l r l₀ r₀ : F}
    (found : pending.get address = some q)
    (usable : Usable V ledger address q.expectedHash (.childHashes (.field l) (.field r)))
    (before : childHashesGet V address ledger = .ok ((l₀, r₀), ledger')) (peer : P) (rpcId : ℕ) :
    Fetching V top contents view ledger'
      (enqueue (enqueue queue address.childLeft (.field l) (.field l₀)) address.childRight (.field r) (.field r₀))
      ((SnarkedSync.setAttempt pending address peer (.success rpcId)).remove address) := by
  obtain ⟨clean, -⟩ := h.properAt found
  obtain ⟨shallow, _, _, left, right, expected⟩ := usable
  cases left
  cases right
  have short : address.length < LEDGER_DEPTH := by
    omega
  have bits : address.length < nbits := short.trans (by decide)
  have c := tree_children (V := V) short clean
  have listed : frontier queue pending address ≠ none := by simp [h.listed found]
  obtain ⟨ledger'', run, kept⟩ := h.ledger.childHashesGet clean short
  cases before.symm.trans run
  have same := frontier_hashes l r peer rpcId h.sound (h.unqueued found) found short clean
  refine ⟨kept, ?_, fun a queued => ?_, fun a left => ?_⟩
  · rw [same]
    refine h.sound.split (h.listed found) c fun v left right => ?_
    show LedgerHash.field (hashAtAddr V v address) = _
    rw [expected, hashAtAddr_node short clean, LedgerHash.field.inj left, LedgerHash.field.inj right]
  · have gone : pending.get a = none := by
      rw [get_enqueue, get_enqueue] at queued
      split at queued
      · next isRight => exact isRight.1 ▸ (frontier_eq_none.1 (h.sound.right_free listed c)).2
      · split at queued
        · next isLeft => exact isLeft.1 ▸ (frontier_eq_none.1 (h.sound.left_free listed c)).2
        · exact h.once a queued
    rw [get_remove, get_setAttempt, gone]
    split <;> rfl
  · rw [same] at left
    rcases h.sound.split_cases listed left with rfl | rfl | ⟨before, -⟩
    · exact ⟨(toIndex_childLeft bits clean).2, short⟩
    · exact ⟨(toIndex_childRight bits clean).2, short⟩
    · exact h.proper a before

theorem accounts {encoded : List (Option A)} {hash root : F} {written : MaskImpl A I F}
    (found : pending.get address = some q)
    (set : accountsSet V address encoded ledger = .ok (hash, written)) (matched : q.expectedHash = .field hash)
    (computed : innerHash V .root written = .ok (root, ledger')) (peer : P) (rpcId : ℕ) :
    ∃ view', Fetching V top contents view' ledger' queue
        ((SnarkedSync.setAttempt pending address peer (.success rpcId)).remove address) ∧
      ∀ j, ¬ Below address j → view' j = view j := by
  obtain ⟨clean, short⟩ := h.properAt found
  obtain ⟨view', h', rfl, same⟩ := h.ledger.accountsSet_ok clean short set
  have listed := h.listed found
  rw [matched] at listed
  have filled := h.sound.fill listed same rfl
  have gone := frontier_accounts pending peer rpcId (h.unqueued found)
  refine ⟨view', ⟨(h'.innerHash_ok clean_root (zero_le _) computed).2, gone ▸ filled, ?_, ?_⟩, same⟩
  · intro a queued
    rw [get_remove, get_setAttempt, h.once a queued]
    split <;> rfl
  · intro a left
    rw [gone] at left
    refine h.proper a fun none => left ?_
    by_cases eq : a = address
    · rw [eq, update_self]
    · rw [update_of_ne eq, none]

end Fetching

theorem Fetching.first (height : ℕ) {ledger : MaskImpl A I F}
    (kept : Local V view ledger) (contents : LedgerHash F) :
    Fetching V (.first (LEDGER_DEPTH - height)) contents view ledger
      (empty.insert (.first (LEDGER_DEPTH - height)) contents) (.empty : Pending P F) := by
  have only : frontier (empty.insert (.first (LEDGER_DEPTH - height)) contents) (.empty : Pending P F) =
      Function.update (fun _ => none) (.first (LEDGER_DEPTH - height)) (some contents) := by
    funext a
    unfold frontier
    rw [get_insert, update_apply]
    split <;> rfl
  refine ⟨kept, only ▸ .root .., fun _ _ => rfl, fun a listed => ?_⟩
  rw [only, update_apply] at listed
  split at listed
  · next eq => exact eq ▸ ⟨zero_mod _, sub_le ..⟩
  · exact absurd rfl listed

theorem Fetching.change (h : Fetching V top contents view s.ledger queue pending)
    (phase : s.state = .merkleTreeSyncPending target queue pending)
    (change : Change V s target queue pending e s') :
    ∃ view' queue' pending', Fetching V top contents view' s'.ledger queue' pending' ∧
      (∀ j, ¬ Below top j → view' j = view j) ∧
      (s'.state = .merkleTreeSyncPending target queue' pending' ∨ s'.state = finish target queue' pending') := by
  cases change with
  | nothing e quiet => exact ⟨view, queue, pending, h, fun _ _ => rfl, .inl phase⟩
  | sent address peer expected queued =>
    exact ⟨view, _, _, h.sent queued peer, fun _ _ => rfl, .inl rfl⟩
  | attempt e address q peer st noAnswer named found progress =>
    exact ⟨view, _, _, h.setAttempt address peer st, fun _ _ => rfl, .inl rfl⟩
  | unusable peer rpcId response address q ledger found refused touches =>
    have stored := (queryOf_eq_some found).1
    obtain ⟨view', h', same⟩ := h.touched stored touches
    exact ⟨view', _, _, h'.setAttempt address peer _, fun j outside => same j (h.outside stored outside), .inl rfl⟩
  | hashes peer rpcId address q l r l₀ r₀ ledger found usable before =>
    exact ⟨view, _, _, h.hashes (queryOf_eq_some found).1 usable before peer rpcId, fun _ _ => rfl, .inr rfl⟩
  | accounts peer rpcId address q accounts hash root written ledger found nonempty set matched computed =>
    have stored := (queryOf_eq_some found).1
    obtain ⟨view', h', same⟩ := h.accounts stored set matched computed peer rpcId
    exact ⟨view', _, _, h', fun j outside => same j (h.outside stored outside), .inr rfl⟩

/-! ## Runs -/

/-- **The states of a sync** over a ledger with the accounts `view₀`. -/
inductive Sound (V : TreeVersion A I F) (target : LedgerHash F) (view₀ : ℕ → Option A) : Sync P A I F → Prop
  | counting {attempts : OrdMap P PeerRpcState} {ledger : MaskImpl A I F}
      (kept : Local V view₀ ledger) : Sound V target view₀ ⟨.numAccountsPending target attempts, ledger⟩
  /-- No account lies outside the node that is fetched. -/
  | fetching {height : ℕ} {contents : LedgerHash F} {view : ℕ → Option A}
      {ledger : MaskImpl A I F} {queue : Queue F} {pending : Pending P F}
      (fits : height ≤ LEDGER_DEPTH) (accepted : completeHeightTreeWithEmpties V contents height = some target)
      (within : ∀ j, 2 ^ height ≤ j → view j = none)
      (fetching : Fetching V (.first (LEDGER_DEPTH - height)) contents view ledger queue pending) :
    Sound V target view₀ ⟨.merkleTreeSyncPending target queue pending, ledger⟩
  | synced {view : ℕ → Option A} {ledger : MaskImpl A I F} (kept : Local V view ledger)
      (root : target = .field (V.nodeHash view LEDGER_DEPTH 0)) :
    Sound V target view₀ ⟨.merkleTreeSyncSuccess target, ledger⟩
  | ended {view : ℕ → Option A} {ledger : MaskImpl A I F} (kept : Local V view ledger)
      (root : target = .field (V.nodeHash view LEDGER_DEPTH 0)) :
    Sound V target view₀ ⟨.success target, ledger⟩

theorem below_first_iff {height : ℕ} (fits : height ≤ LEDGER_DEPTH) (j : ℕ) :
    Below (.first (LEDGER_DEPTH - height)) j ↔ j < 2 ^ height := by
  have length : LEDGER_DEPTH - (Address.first (LEDGER_DEPTH - height)).length = height := Nat.sub_sub_self fits
  rw [Below, length, toIndex_first, Nat.div_eq_zero_iff_lt (Nat.two_pow_pos _)]

/-- A frontier without addresses: the completed tree over the accounts is the target. -/
theorem Fetching.root {height : ℕ} {ledger : MaskImpl A I F} (fits : height ≤ LEDGER_DEPTH)
    (accepted : completeHeightTreeWithEmpties V contents height = some target)
    (within : ∀ j, 2 ^ height ≤ j → view j = none)
    (h : Fetching V (.first (LEDGER_DEPTH - height)) contents view ledger queue pending)
    (done : queue.entries = [] ∧ pending.entries = []) : target = .field (V.nodeHash view LEDGER_DEPTH 0) := by
  have top := h.sound.done fun a => frontier_eq_none.2
    ⟨get_eq_none.2 (by simp [done.1]), get_eq_none.2 (by simp [done.2])⟩
  rw [← top] at accepted
  have completed := completeHeightTree_eq (V := V) fits within
  rw [← hashAtAddr_first fits] at completed
  exact Option.some.inj (accepted.symm.trans completed)

/-- An accepted answer gives a tree with the target as its root, unless the target is the
    hash of the empty ledger. -/
theorem Accepts.height {count height : ℕ} {attempts : OrdMap P PeerRpcState}
    (accepts : Accepts V s e count contents) (phase : s.state = .numAccountsPending target attempts)
    (nonempty : target ≠ .field (V.emptyHashAtHeight LEDGER_DEPTH))
    (tall : treeHeightForNumAccounts count = .ok height) :
    height ≤ LEDGER_DEPTH ∧ completeHeightTreeWithEmpties V contents height = some target := by
  obtain ⟨target', attempts', peer, rpcId, state, -, -, computed⟩ := accepts
  cases phase.symm.trans state
  unfold completeNumAccountsTreeWithEmpties at computed
  split at computed
  · cases computed
    exact absurd rfl nonempty
  · rw [tall, ok_bind] at computed
    split at computed
    · cases computed
      exact absurd rfl nonempty
    · next fits => exact ⟨not_lt.1 fits, Except.ok.inj computed⟩

/-- The local ledger has no account outside the tree that an accepted answer gives. -/
def Within (V : TreeVersion A I F) (view₀ : ℕ → Option A) (s : Sync P A I F) (e : Event P A F) : Prop :=
  ∀ count contents height, Accepts V s e count contents → treeHeightForNumAccounts count = .ok height →
    ∀ j, 2 ^ height ≤ j → view₀ j = none

theorem Sound.step {view₀ : ℕ → Option A} (nonempty : target ≠ .field (V.emptyHashAtHeight LEDGER_DEPTH))
    (h : Sound V target view₀ s) (within : Within V view₀ s e) (run : step V s e = .ok s') :
    Sound V target view₀ s' := by
  obtain ⟨state', ledger'⟩ := s'
  cases h with
  | @counting attempts ledger kept =>
    obtain ⟨same, ⟨attempts', state⟩ | ⟨count, contents, height, accepts, tall, state⟩⟩ := step_counting rfl run
    · cases state
      cases same
      exact .counting kept
    · cases state
      cases same
      obtain ⟨fits, accepted⟩ := accepts.height rfl nonempty tall
      exact .fetching fits accepted (within count contents height accepts tall) (.first height kept contents)
  | @fetching height contents view ledger queue pending fits accepted within' fetching =>
    obtain ⟨view', queue', pending', h', same, state⟩ := fetching.change rfl (step_change rfl run)
    have within'' : ∀ j, 2 ^ height ≤ j → view' j = none := by
      intro j far
      rw [same j (by rw [below_first_iff fits]; omega), within' j far]
    rcases state with state | state
    · cases state
      exact .fetching fits accepted within'' h'
    · unfold finish at state
      split at state
      · next done =>
        cases state
        exact .synced h'.ledger (h'.root fits accepted within'' done)
      · cases state
        exact .fetching fits accepted within'' h'
  | @synced view ledger kept root =>
    rcases step_idle (by rintro _ _ ⟨⟩) (by rintro _ _ _ ⟨⟩) run with same | ⟨_, state, same⟩
    · cases same
      exact .synced kept root
    · cases state
      cases same
      exact .ended kept root
  | @ended view ledger kept root =>
    rcases step_idle (by rintro _ _ ⟨⟩) (by rintro _ _ _ ⟨⟩) run with same | ⟨_, state, same⟩
    · cases same
      exact .ended kept root
    · cases state

/-- **Runs**: whatever the peers answer, the root of the ledger at the end is the target. -/
theorem run_root {db : Database A I F} (sound : db.Sound V LEDGER_DEPTH)
    (nonempty : target ≠ .field (V.emptyHashAtHeight LEDGER_DEPTH)) {events : List (Event P A F)}
    (within : Along (step V) (Within V db.getAtIndex) (start target (.root db)) events)
    (ran : run V (start target (.root db)) events = .ok s) {reached : LedgerHash F}
    (state : s.state = .merkleTreeSyncSuccess reached) :
    ∃ x ledger, target = .field x ∧ s.ledger.merkleRoot V = .ok (x, ledger) := by
  have h : Sound V target db.getAtIndex s :=
    within.induction (Sound.step nonempty) (.counting ⟨db, rfl, sound, rfl⟩) ran
  cases h with
  | synced kept root =>
    obtain ⟨db', rfl, sound', rfl⟩ := kept
    obtain ⟨ledger, computed, -⟩ := MaskImpl.merkleRoot_spec (m := .root db') (V := V) (by decide) (by decide) sound'
    exact ⟨_, ledger, root, computed⟩
  | _ => cases state

end MinaRust.SnarkedSync
