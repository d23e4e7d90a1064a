/-
  The representation invariant of the pool, along every sequence of calls.

  It holds as long as no command is added to a queue that already has `2 ^ 32` commands: at
  that length the nonces wrap, and a command can be queued a second time.
-/
import Mathlib.Data.Fintype.Card
import MinaRust.TransactionPool.FrontierDiff
import MinaRust.TransactionPool.Gossip
import MinaRust.TransactionPool.Revalidate

set_option linter.unusedSectionVars false

namespace MinaRust.TransactionPool.IndexedPool

open List AList

variable {Cmd A Hash R : Type} [PoolCommand Cmd A Hash R]
  [DecidableEq Cmd] [DecidableEq A] [LinearOrder Hash] [LinearOrder R]

/-! ## Calls -/

/-- The calls that change a pool, each with the order in which it meets the elements of a
    hash map. -/
inductive Call (Cmd A : Type) where
  | addFromGossipExn (globalSlotSinceGenesis currentGlobalSlot : ℕ) (cmd : Cmd) (currentNonce balance : ℕ)
  | addFromBacktrack (globalSlotSinceGenesis currentGlobalSlot : ℕ) (cmd : Cmd)
  | removeWithDependentsExn (cmd : Cmd)
  | removeExpired (globalSlotSinceGenesis : ℕ) (order : List Cmd)
  | removeLowestFee
  | revalidate (requiresRevalidation : A → Bool) (getAccount : A → Option AccountView)
      (order : List (Sigma fun _ : A => List Cmd × ℕ))

def Call.apply (p : IndexedPool Cmd A Hash R) : Call Cmd A → Except Stop (IndexedPool Cmd A Hash R)
  | .addFromGossipExn slot current cmd nonce balance =>
    (fun r => r.1) <$> p.addFromGossipExn slot current cmd nonce balance
  | .addFromBacktrack slot current cmd => p.addFromBacktrack slot current cmd
  | .removeWithDependentsExn cmd => (fun r => r.1) <$> p.removeWithDependentsExn cmd
  | .removeExpired _ order => (fun r => r.1) <$> p.removeExpired order
  | .removeLowestFee => (fun r => r.1) <$> p.removeLowestFee
  | .revalidate requires getAccount order => (fun r => r.1) <$> p.revalidate requires getAccount order

/-- A command is removed only when it is in the pool, and loops go through what is there. -/
def Call.Legal (p : IndexedPool Cmd A Hash R) : Call Cmd A → Prop
  | .removeWithDependentsExn cmd => p.member cmd
  | .removeExpired slot order => order.Perm (p.expired slot)
  | .revalidate _ _ order => order.Perm p.allBySender.entries
  | _ => True

/-- A command is added only to a queue of fewer than `2 ^ 32` commands. -/
def Call.Room (p : IndexedPool Cmd A Hash R) : Call Cmd A → Prop
  | .addFromGossipExn _ _ cmd _ _ => (p.queueOf (feePayer cmd)).length < 2 ^ 32
  | .addFromBacktrack _ _ cmd => (p.queueOf (feePayer cmd)).length < 2 ^ 32
  | _ => True

/-- The pools that successful calls lead to from an empty pool, each call being allowed. -/
inductive Reachable (allowed : IndexedPool Cmd A Hash R → Call Cmd A → Prop) :
    IndexedPool Cmd A Hash R → Prop where
  | new (slotTxEnd : Option ℕ) : Reachable allowed { new with slotTxEnd := slotTxEnd }
  | call {p p' : IndexedPool Cmd A Hash R} (call : Call Cmd A) :
      Reachable allowed p → call.Legal p → allowed p call → call.apply p = .ok p' → Reachable allowed p'

/-! ## The representation -/

def commands (p : IndexedPool Cmd A Hash R) : List Cmd :=
  p.allBySender.entries.flatMap fun e => e.2.1

def heads (p : IndexedPool Cmd A Hash R) : List Cmd :=
  p.allBySender.entries.filterMap fun e => e.2.1.head?

/-- **The indexes describe the commands of the queues.** -/
structure Represents (p : IndexedPool Cmd A Hash R) : Prop where
  queue_nonempty : ∀ s q r, p.allBySender.lookup s = some (q, r) → q ≠ []
  queue_sender : ∀ s q r, p.allBySender.lookup s = some (q, r) → ∀ c ∈ q, feePayer c = s
  queue_consecutive : ∀ s q r, p.allBySender.lookup s = some (q, r) →
    q.IsChain fun c d => applicableAtNonce d = expectedTargetNonce c
  queue_reserved : ∀ s q r, p.allBySender.lookup s = some (q, r) →
    ∃ consumed, q.mapM currencyConsumed = some consumed ∧ r = consumed.sum
  allByHash : ∀ h c, p.allByHash.lookup h = some c ↔ hash c = h ∧ c ∈ p.commands
  allByFee : ∀ rate c, c ∈ setAt p.allByFee rate ↔ feePerWu c = rate ∧ c ∈ p.commands
  allByFee_nonempty : ∀ rate set, p.allByFee.lookup rate = some set → ∃ c, c ∈ set
  applicableByFee : ∀ rate c, c ∈ setAt p.applicableByFee rate ↔ feePerWu c = rate ∧ c ∈ p.heads
  applicableByFee_nonempty : ∀ rate set, p.applicableByFee.lookup rate = some set → ∃ c, c ∈ set
  expiration : ∀ slot c, c ∈ setAt p.transactionsWithExpiration slot ↔
    validUntil c = slot ∧ c ∈ p.commands ∧ validUntil c < slotMax
  expiration_nonempty : ∀ slot set, p.transactionsWithExpiration.lookup slot = some set → ∃ c, c ∈ set
  nodup : p.commands.Nodup
  size : p.size = p.commands.length

variable {p p' : IndexedPool Cmd A Hash R} {C H : Finset Cmd}

theorem mapM_currencyConsumed : ∀ {q : List Cmd}, (∀ c ∈ q, cost c < 2 ^ 64) →
    q.mapM currencyConsumed = some (q.map cost)
  | [], _ => rfl
  | c :: q, bound => by
    rw [forall_mem_cons] at bound
    rw [mapM_cons, currencyConsumed_eq_some.2 ⟨bound.1, rfl⟩, mapM_currencyConsumed bound.2]
    rfl

theorem Holds.mem_commands (h : Holds p C H) (c : Cmd) : c ∈ p.commands ↔ c ∈ C := by
  rw [h.commands, IndexedPool.commands, mem_flatMap]
  constructor
  · rintro ⟨⟨s, q, r⟩, he, mem⟩
    have state := mem_lookup_iff.2 he
    have sender := (h.queues s q r state).sender c mem
    rw [sender, queueOf, state]
    exact mem
  · intro mem
    cases state : p.allBySender.lookup (feePayer c) with
    | none => rw [queueOf, state] at mem; cases mem
    | some e =>
      rw [queueOf, state] at mem
      exact ⟨⟨_, e⟩, mem_lookup_iff.1 state, mem⟩

theorem Holds.mem_heads (h : Holds p C H) (c : Cmd) : c ∈ p.heads ↔ c ∈ H := by
  rw [h.heads, IndexedPool.heads, mem_filterMap]
  constructor
  · rintro ⟨⟨s, q, r⟩, he, head⟩
    have state := mem_lookup_iff.2 he
    have sender := (h.queues s q r state).sender c (mem_of_mem_head? head)
    rw [sender, queueOf, state]
    cases q with
    | nil => cases head
    | cons d q => cases head; simp
  · intro mem
    cases state : p.allBySender.lookup (feePayer c) with
    | none => rw [queueOf, state] at mem; cases mem
    | some e =>
      obtain ⟨q, r⟩ := e
      rw [queueOf, state] at mem
      refine ⟨⟨_, q, r⟩, mem_lookup_iff.1 state, ?_⟩
      cases q with
      | nil => cases mem
      | cons d q => simpa [eq_comm] using mem

theorem Holds.nodup_commands (h : Holds p C H) : p.commands.Nodup := by
  unfold IndexedPool.commands
  rw [nodup_flatMap]
  refine ⟨fun e he => ?_, ?_⟩
  · exact (h.queues e.1 e.2.1 e.2.2 (mem_lookup_iff.2 he)).nodup
  · refine (nodupKeys_iff_pairwise.1 p.allBySender.nodupKeys).imp_of_mem fun he he' ne => ?_
    intro c mem mem'
    have sender := (h.queues _ _ _ (mem_lookup_iff.2 he)).sender c mem
    have sender' := (h.queues _ _ _ (mem_lookup_iff.2 he')).sender c mem'
    exact ne (sender.symm.trans sender')

theorem Holds.represents (h : Holds p C H) : Represents p where
  queue_nonempty s q r state := (h.queues s q r state).nonempty
  queue_sender s q r state := (h.queues s q r state).sender
  queue_consecutive s q r state := (h.queues s q r state).chain
  queue_reserved s q r state :=
    have ok := h.queues s q r state
    ⟨q.map cost, mapM_currencyConsumed fun _ => ok.cost_lt, ok.reserved_eq⟩
  allByHash hash c := by rw [h.mem_commands, h.indexed.byHash]
  allByFee rate c := by rw [h.mem_commands, h.indexed.byFee.mem]
  allByFee_nonempty := h.indexed.byFee.nonempty
  applicableByFee rate c := by rw [h.mem_heads, h.indexed.applicable.mem]
  applicableByFee_nonempty := h.indexed.applicable.nonempty
  expiration slot c := by
    have last : validUntil c ≠ slotMax ↔ validUntil c < slotMax := by
      have lt := PoolCommand.validUntil_lt c
      unfold slotMax
      omega
    rw [h.mem_commands, h.indexed.expiration.mem, last]
  expiration_nonempty := h.indexed.expiration.nonempty
  nodup := h.nodup_commands
  size := by
    rw [h.indexed.size, ← toFinset_card_of_nodup h.nodup_commands]
    congr 1
    ext c
    rw [mem_toFinset, h.mem_commands]

/-! ## Runs -/

theorem Holds.call (h : Holds p C H) (call : Call Cmd A) (legal : call.Legal p)
    (room : call.Room p) (run : call.apply p = .ok p') : ∃ C' H', Holds p' C' H' := by
  cases call with
  | addFromGossipExn slot current cmd nonce balance =>
    obtain ⟨r, done, rfl⟩ := map_eq_ok.1 run
    obtain ⟨C', H', h', -⟩ := (h.addFromGossip_ends nonce room).result done
    exact ⟨C', H', h'⟩
  | addFromBacktrack slot current cmd =>
    obtain ⟨C', H', h', -⟩ := h.addFromBacktrack room run
    exact ⟨C', H', h'⟩
  | removeWithDependentsExn cmd =>
    obtain ⟨r, done, rfl⟩ := map_eq_ok.1 run
    obtain ⟨p', dropped, C', H', run', h', -⟩ := h.removeWithDependents (h.indexed.member_iff.1 legal)
    cases done.symm.trans run'
    exact ⟨C', H', h'⟩
  | removeExpired slot order =>
    obtain ⟨r, done, rfl⟩ := map_eq_ok.1 run
    obtain ⟨p', dropped, C', H', run', h', -⟩ := h.removeExpired order
    cases done.symm.trans run'
    exact ⟨C', H', h'⟩
  | removeLowestFee =>
    obtain ⟨r, done, rfl⟩ := map_eq_ok.1 run
    obtain ⟨p', dropped, C', H', run', h', -⟩ := h.removeLowestFee
    cases done.symm.trans run'
    exact ⟨C', H', h'⟩
  | revalidate requires getAccount order =>
    obtain ⟨r, done, rfl⟩ := map_eq_ok.1 run
    obtain ⟨C', H', h', -⟩ := (h.revalidate requires getAccount legal).result done
    exact ⟨C', H', h'⟩

theorem Reachable.holds (h : Reachable Call.Room p) : ∃ C H, Holds p C H := by
  induction h with
  | new slotTxEnd =>
    have indexed : Indexed (IndexedPool.new : IndexedPool Cmd A Hash R) ∅ ∅ := .new
    exact ⟨∅, ∅, ⟨indexed.byFee, indexed.byHash, indexed.applicable, indexed.expiration, indexed.size⟩,
      Holds.new.queues, Holds.new.commands, Holds.new.heads⟩
  | call c _ legal room run ih =>
    obtain ⟨C, H, h⟩ := ih
    exact h.call c legal room run

/-- **The representation invariant of the pool**: it holds after every sequence of
    successful calls that add commands to queues of fewer than `2 ^ 32` commands. -/
theorem reachable_represents (p : IndexedPool Cmd A Hash R)
    (reachable : Reachable Call.Room p) : Represents p := by
  obtain ⟨C, H, h⟩ := reachable.holds
  exact h.represents

/-! ## Revalidation and trimming -/

/-- The rounds of `drop_until_below_max_size`: each of them succeeds and drops a command. -/
theorem Holds.dropUntil (poolMaxSize : ℕ) : ∀ (rounds : ℕ) {p : IndexedPool Cmd A Hash R}
    {C H : Finset Cmd}, Holds p C H → ∃ p' dropped C' H',
      TransactionPool.dropUntil poolMaxSize rounds p = .ok (p', dropped) ∧ Holds p' C' H' ∧
      Removes p p' C C' dropped ∧ (p.size ≤ poolMaxSize + rounds → p'.size ≤ poolMaxSize)
  | 0, p, C, H, h => ⟨p, [], C, H, rfl, h, .refl p C, id⟩
  | rounds + 1, p, C, H, h => by
    unfold TransactionPool.dropUntil
    by_cases large : poolMaxSize < p.size
    · have some : C.Nonempty := by
        rw [← Finset.card_pos, ← h.indexed.size]
        omega
      obtain ⟨p₁, ds, C₁, H₁, lowest, h₁, removes, dropped⟩ := h.removeLowestFee
      obtain ⟨d, mem, hd⟩ := dropped some
      have less : p₁.size < p.size := by
        rw [h₁.indexed.size, h.indexed.size]
        refine Finset.card_lt_card ⟨fun c hc => ((removes.commands c).1 hc).1, fun all => ?_⟩
        exact ((removes.commands d).1 (all mem)).2 hd
      obtain ⟨p', rest, C', H', later, h', removes', small⟩ := Holds.dropUntil poolMaxSize rounds h₁
      refine ⟨p', ds ++ rest, C', H', ?_, h', removes.trans removes', fun _ => small (by omega)⟩
      rw [if_pos large, lowest]
      simp only [ok_bind, myAssert, ensure_of (ne_nil_of_mem hd), later]
      rfl
    · rw [if_neg large]
      exact ⟨p, [], C, H, rfl, h, .refl p C, fun _ => by omega⟩

/-- **Revalidation keeps exactly what is still payable**, and trimming ends with at most the
    wanted number of commands.  Accounts that are not there have the state of an empty one. -/
theorem revalidate_payable (valid : p.Valid) (requires : A → Bool) (accounts : A → AccountView)
    {order : List (Sigma fun _ : A => List Cmd × ℕ)} (perm : order.Perm p.allBySender.entries) :
    ∃ p' dropped, revalidate requires (fun s => some (accounts s)) order p = .ok (p', dropped) ∧
      p'.Valid ∧ (∀ s, requires s = false → p'.allBySender.lookup s = p.allBySender.lookup s) ∧
      (∀ s q r, requires s = true → p'.allBySender.lookup s = some (q, r) →
        (∀ c ∈ q.head?, applicableAtNonce c = (accounts s).nonce) ∧ q <:+: p.queueOf s ∧
          r = totalCost q ∧ r ≤ (accounts s).liquidBalance) ∧
      (∀ s, requires s = true → ∀ l, l <+: stillApplicable (accounts s) (p.queueOf s) →
        totalCost l ≤ (accounts s).liquidBalance → l <+: p'.queueOf s) ∧
      (∀ c, c ∈ dropped ↔ c ∈ p.commands ∧ c ∉ p'.commands) ∧
      ∀ poolMaxSize, ∃ p'' trimmed, p''.Valid ∧ p''.commands.length ≤ poolMaxSize ∧
        TransactionPool.dropUntilBelowMaxSize poolMaxSize p' = .ok (p'', trimmed) := by
  obtain ⟨C, H, h⟩ := valid
  have ends := h.revalidate requires (fun s => some (accounts s)) perm
  cases run : revalidate requires (fun s => some (accounts s)) order p with
  | error e =>
    rw [run] at ends
    obtain ⟨-, id, -, none⟩ := ends
    cases none
  | ok result =>
    obtain ⟨p', dropped⟩ := result
    obtain ⟨C', H', h', commands, gone, -, visited, unknown⟩ := ends.result run
    have kept : ∀ s, requires s = true → ∃ keep, Keeps (accounts s) (p.queueOf s) keep ∧
        p'.allBySender.lookup s = keptState keep := by
      intro s required
      by_cases state : p.allBySender.lookup s = none
      · refine ⟨[], ?_, by rw [unknown s state]; rfl⟩
        rw [queueOf, state, stateQueue_none]
        exact ⟨prefix_rfl, Nat.zero_le _, fun l front _ => front.length_le⟩
      · have := visited s state
        rw [Revalidated, if_pos required] at this
        obtain ⟨account, keep, ⟨⟩, keeps, eq⟩ := this
        exact ⟨keep, keeps, eq⟩
    refine ⟨p', dropped, rfl, ⟨C', H', h'⟩, fun s other => ?_, fun s q r required state => ?_,
      fun s required l front le => ?_, fun c => ?_, fun poolMaxSize => ?_⟩
    · by_cases state : p.allBySender.lookup s = none
      · rw [unknown s state, state]
      · have := visited s state
        rwa [Revalidated, if_neg (by rw [other]; decide)] at this
    · obtain ⟨keep, keeps, eq⟩ := kept s required
      rw [state, keptState] at eq
      split at eq
      · cases eq
      · cases eq
        exact ⟨fun c head => keeps.nonce head, keeps.part, rfl, keeps.payable⟩
    · obtain ⟨keep, keeps, eq⟩ := kept s required
      rw [queueOf, eq, stateQueue_keptState]
      exact prefix_of_prefix_length_le front keeps.front (keeps.longest l front le)
    · rw [h.mem_commands, h'.mem_commands, commands]
      have := gone c
      tauto
    · obtain ⟨p'', trimmed, C'', H'', trim, h'', -, small⟩ := h'.dropUntil poolMaxSize p'.size
      refine ⟨p'', trimmed, ⟨C'', H'', h''⟩, ?_, trim⟩
      rw [← h''.represents.size]
      exact small (Nat.le_add_left _ _)

/-! ## A queue of all nonces -/

/-- Commands of one sender that differ in their nonces only. -/
abbrev NonceCmd := Fin (2 ^ 32)

instance : PoolCommand NonceCmd Unit ℕ ℕ where
  hash c := c.val
  hash_injective _ _ := Fin.ext
  feePayer _ := ()
  fee _ := 0
  amount _ := 0
  feePerWu _ := 0
  applicableAtNonce c := c.val
  applicableAtNonce_lt c := c.isLt
  validUntil _ := slotMax
  validUntil_lt _ := by decide

abbrev NoncePool := IndexedPool NonceCmd Unit ℕ ℕ

def queueNonce (c : NonceCmd) : Call NonceCmd Unit := .addFromGossipExn 0 0 c 0 0

theorem queueNonce_first : ∃ p : NoncePool, (queueNonce 0).apply { new with slotTxEnd := none } = .ok p ∧
    p.allBySender.lookup () = some ([0], 0) ∧ p.size = 1 ∧ p.slotTxEnd = none :=
  ⟨_, rfl, rfl, rfl, rfl⟩

theorem queueNonce_next {p : NoncePool} {q : List NonceCmd} {last : NonceCmd}
    (state : p.allBySender.lookup () = some (q, 0)) (hlast : q.getLast? = some last)
    (slotTxEnd : p.slotTxEnd = none) : ∃ p' : NoncePool, (queueNonce (last + 1)).apply p = .ok p' ∧
      p'.allBySender.lookup () = some (q ++ [last + 1], 0) ∧ p'.size = p.size + 1 ∧ p'.slotTxEnd = none := by
  have nonempty : q ≠ [] := by
    rintro rfl
    cases hlast
  obtain ⟨first, hfirst⟩ : ∃ first, q.head? = some first := by
    cases q with
    | nil => exact absurd rfl nonempty
    | cons d q => exact ⟨d, rfl⟩
  have next : expectedTargetNonce last = applicableAtNonce (last + 1) := (Fin.val_add last 1).symm
  have impl : ∀ depth, addFromGossipExnImpl p.slotTxEnd 0 0 0 (depth + 1) (last + 1) 0 ⟨(), some (q, 0)⟩ [] =
      .ok (⟨(), some (q ++ [last + 1], 0)⟩, [.add (last + 1) false], last + 1, []) := by
    have within : ∀ e ∈ p.slotTxEnd, 0 < e := by simp [slotTxEnd]
    intro depth
    have consumed : currencyConsumed (last + 1) = some 0 := rfl
    have sum : checkedAdd 0 0 = some 0 := rfl
    unfold addFromGossipExnImpl
    simp only [checkSlotTxEnd, ensure_of within, checkExpiry, ensure_of (Nat.zero_le _), consumed, okOr,
      ok_bind, myAssert, ensure_of nonempty, hfirst, hlast, if_pos next, sum]
    rfl
  refine ⟨(p.setSender ⟨(), some (q ++ [last + 1], 0)⟩).insertCommand (last + 1), ?_, ?_, ?_, ?_⟩
  · refine map_eq_ok.2 ⟨(_, last + 1, []), ?_, rfl⟩
    unfold addFromGossipExn
    dsimp only
    rw [state, impl]
    rfl
  · exact lookup_setSender p _
  · rfl
  · rw [insertCommand_slotTxEnd, setSender_slotTxEnd, slotTxEnd]

/-- The commands of the nonces `0`, `1`, ... are queued one after another, also when the
    nonces wrap. -/
theorem queueNonces (allowed : NoncePool → Call NonceCmd Unit → Prop) : ∀ n : ℕ,
    (∀ p c, (p.queueOf ()).length ≤ n → allowed p (queueNonce c)) → ∃ (p : NoncePool) (q : List NonceCmd)
      (last : NonceCmd), Reachable allowed p ∧ p.allBySender.lookup () = some (q, 0) ∧
        q.getLast? = some last ∧ q.length = n + 1 ∧ p.size = n + 1 ∧ p.slotTxEnd = none
  | 0, ok => by
    obtain ⟨p, run, state, size, slotTxEnd⟩ := queueNonce_first
    exact ⟨p, [0], 0, .call (queueNonce 0) (.new none) trivial (ok _ 0 (Nat.le_refl 0)) run, state, rfl, rfl,
      size, slotTxEnd⟩
  | n + 1, ok => by
    obtain ⟨p, q, last, reachable, state, hlast, length, size, slotTxEnd⟩ :=
      queueNonces allowed n fun p c short => ok p c (by omega)
    obtain ⟨p', run, state', size', slotTxEnd'⟩ := queueNonce_next state hlast slotTxEnd
    have short : (p.queueOf ()).length ≤ n + 1 := by rw [queueOf, state, stateQueue_some, length]
    exact ⟨p', _, last + 1, .call (queueNonce (last + 1)) reachable trivial (ok p (last + 1) short) run, state', by simp,
      by simp [length], by rw [size', size], slotTxEnd'⟩

/-- Three commands of one sender. -/
theorem reachable_represents_three : ∃ p : NoncePool, Reachable Call.Room p ∧ p.size = 3 ∧ Represents p := by
  obtain ⟨p, q, last, reachable, -, -, -, size, -⟩ := queueNonces Call.Room 2
    fun p c short => Nat.lt_of_le_of_lt short (by decide)
  exact ⟨p, reachable, size, reachable_represents p reachable⟩

/-- An account that is past the first of three commands. -/
theorem revalidate_payable_three : ∃ p : NoncePool, p.Valid ∧ p.size = 3 ∧ ∃ p' dropped,
    revalidate (fun _ => true) (fun _ => some ⟨1, 0, true⟩) p.allBySender.entries p = .ok (p', dropped) ∧
      ∀ c ∈ (p'.queueOf ()).head?, c.val = 1 := by
  obtain ⟨p, q, last, reachable, -, -, -, size, -⟩ := queueNonces Call.Room 2
    fun p c short => Nat.lt_of_le_of_lt short (by decide)
  obtain ⟨p', dropped, run, -, -, kept, -⟩ := revalidate_payable reachable.holds (fun _ => true)
    (fun _ => ⟨1, 0, true⟩) (List.Perm.refl p.allBySender.entries)
  refine ⟨p, reachable.holds, size, p', dropped, run, fun c head => ?_⟩
  cases state : p'.allBySender.lookup () with
  | none =>
    rw [queueOf, state, stateQueue_none] at head
    cases head
  | some e =>
    rw [queueOf, state, stateQueue_some] at head
    exact (kept () e.1 e.2 rfl state).1 c head

/-- **When a queue has the commands of all nonces, its first command is queued again**: the
    pool counts one command more than there are. -/
theorem reachable_wraps : ∃ p : NoncePool, Reachable (fun _ _ => True) p ∧ ¬ Represents p := by
  obtain ⟨p, q, last, reachable, -, -, -, size, -⟩ :=
    queueNonces (fun _ _ => True) (2 ^ 32) fun _ _ _ => trivial
  refine ⟨p, reachable, fun represents => ?_⟩
  have few : p.commands.length ≤ Fintype.card NonceCmd := represents.nodup.length_le_card
  rw [← represents.size, Fintype.card_fin] at few
  omega

end MinaRust.TransactionPool.IndexedPool
