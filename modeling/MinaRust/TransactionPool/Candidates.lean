/-
  The transaction candidates
  (`node/src/transaction_pool/candidate/transaction_pool_candidate_state.rs`).

  Transactions announced or sent by peers are stored by peer (`P`), with an index by
  transaction hash (`H`); `by_message_id` is the queue of the pubsub messages (`M`) they came
  in.
-/
import MinaRust.Lib.SparseTable

namespace MinaRust.TransactionPool.Candidates

open List OrdMap SparseTable

structure TransactionInfo (H : Type) where
  hash : H
  fee : ℕ

structure TransactionWithHash (H B : Type) where
  hash : H
  body : B

inductive TransactionPoolMessageSource (M : Type) where
  | rpc (id : ℕ)
  | pubsub (id : M)
  | none

inductive CandidateState (H B : Type) where
  | infoReceived (time : ℕ) (info : TransactionInfo H)
  | fetchPending (time : ℕ) (info : TransactionInfo H) (rpcId : ℕ)
  | received (time : ℕ) (transaction : TransactionWithHash H B)
  | verifyPending (time : ℕ) (transaction : TransactionWithHash H B) (verifyId : Unit)
  | verifyError (time : ℕ) (transaction : TransactionWithHash H B)
  | verifySuccess (time : ℕ) (transaction : TransactionWithHash H B)

namespace CandidateState

variable {H B : Type}

def transaction : CandidateState H B → Option (TransactionWithHash H B)
  | infoReceived .. | fetchPending .. => none
  | received _ transaction | verifyPending _ transaction _ | verifyError _ transaction
  | verifySuccess _ transaction => some transaction

def pendingVerifyId : CandidateState H B → Option Unit
  | verifyPending _ _ verifyId => some verifyId
  | _ => none

def receivedTransaction : CandidateState H B → Option (TransactionWithHash H B)
  | received _ transaction => some transaction
  | _ => none

end CandidateState

variable {P H M B : Type} [LinearOrder P] [LinearOrder H]
  [LinearOrder M]

/-- `table` is `by_peer`, by rows, and `by_hash`, its columns. -/
structure CandidatesState (P H M B : Type) [LinearOrder P] [LinearOrder H]
    [LinearOrder M] where
  table : SparseTable P H (CandidateState H B)
  byMessageId : OrdMap M (P × List H)

namespace CandidatesState

def new : CandidatesState P H M B := ⟨.empty, .empty⟩

variable (s : CandidatesState P H M B) (time : ℕ) (peer : P) (verifyId : Unit) (hash : H)

def get : Option (CandidateState H B) :=
  s.table.cell peer hash

def infoReceived (s : CandidatesState P H M B) (time : ℕ) (peer : P)
    (info : TransactionInfo H) : CandidatesState P H M B :=
  { s with table := s.table.set peer info.hash (.infoReceived time info) }

def fetchPending (s : CandidatesState P H M B) (time : ℕ) (peer : P) (hash : H)
    (rpcId : ℕ) : CandidatesState P H M B :=
  { s with table := s.table.modifyCell peer hash fun
      | .infoReceived _ info => .fetchPending time info rpcId
      | state => state }

def transactionReceived (transaction : TransactionWithHash H B) : CandidatesState P H M B :=
  { s with table := s.table.set peer transaction.hash (.received time transaction) }

def transactionsReceived (transactions : List (TransactionWithHash H B)) (messageId : M) :
    CandidatesState P H M B :=
  let hashes := transactions.map TransactionWithHash.hash
  transactions.foldl (fun s transaction => s.transactionReceived time peer transaction)
    { s with byMessageId := s.byMessageId.insert messageId (peer, hashes) }

def verifyPending (s : CandidatesState P H M B) (time : ℕ) (peer : P)
    (verifyId : Unit) (hashes : List H) : CandidatesState P H M B :=
  hashes.foldl (fun s hash => { s with table := s.table.modifyCell peer hash fun
      | .received _ transaction => .verifyPending time transaction verifyId
      | state => state }) s

def transactionRemove : CandidatesState P H M B :=
  { s with table := s.table.removeColumn hash }

/-- The candidates of `peer` that wait for the result of `verifyId`. -/
def pendingHashes : List H :=
  match s.table.rows.get peer with
  | none => []
  | some candidates =>
    (candidates.entries.filter fun e => decide (e.2.pendingVerifyId = some verifyId)).map Prod.fst

def verifyResult : TransactionPoolMessageSource M → CandidatesState P H M B
  | .pubsub id =>
    match s.byMessageId.get id with
    | none => s
    | some (_, hashes) =>
      hashes.foldl transactionRemove { s with byMessageId := s.byMessageId.remove id }
  | _ => (s.pendingHashes peer verifyId).foldl transactionRemove s

def peerRemove : CandidatesState P H M B :=
  { s with table := s.table.removeRow peer }

def peerTransactionRemove : CandidatesState P H M B :=
  { s with table := s.table.removeCell peer hash }

/-- `transaction.hash()` can fail; nothing is removed then. -/
def removeInferiorTransactions : Option H → CandidatesState P H M B
  | none => s
  | some hash => s.transactionRemove hash

/-- The predicate is called once for each candidate, so that its answers depend on the candidate. -/
def retain (s : CandidatesState P H M B) (predicate : P → H → CandidateState H B → Bool) :
    CandidatesState P H M B :=
  { s with table := s.table.retain predicate }

/-! ## The next batch to verify -/

def nextBatchFromPubsub : Option (P × List (TransactionWithHash H B) × TransactionPoolMessageSource M) := do
  let (messageId, peer, hashes) ← s.byMessageId.entries.head?
  let candidates ← s.table.rows.get peer
  let transactions := candidates.entries.filterMap fun (hash, state) =>
    state.receivedTransaction.filter fun _ => hashes.contains hash
  return (peer, transactions, .pubsub messageId)

/-- Up to the first peer that has sent the transaction; the loop also ends at a peer without the
    candidate. -/
def batchFromPeersOf (s : CandidatesState P H M B) (hash : H) :
    List P → Option (P × List (TransactionWithHash H B) × TransactionPoolMessageSource M)
  | [] => none
  | peer :: peers => do
    let candidates ← s.table.rows.get peer
    let state ← candidates.get hash
    if state.transaction.isSome then
      return (peer, candidates.entries.filterMap fun e => e.2.receivedTransaction, .none)
    else s.batchFromPeersOf hash peers

def nextBatchFromPeers : Option (P × List (TransactionWithHash H B) × TransactionPoolMessageSource M) :=
  s.table.columns.entries.findSome? fun e => s.batchFromPeersOf e.1 e.2.keys

def getBatchToVerify : Option (P × List (TransactionWithHash H B) × TransactionPoolMessageSource M) :=
  s.nextBatchFromPubsub.or s.nextBatchFromPeers

end CandidatesState

/-! ## Runs -/

inductive Op (P H M B : Type) where
  | infoReceived (time : ℕ) (peer : P) (info : TransactionInfo H)
  | fetchPending (time : ℕ) (peer : P) (hash : H) (rpcId : ℕ)
  | transactionReceived (time : ℕ) (peer : P) (transaction : TransactionWithHash H B)
  | transactionsReceived (time : ℕ) (peer : P)
      (transactions : List (TransactionWithHash H B)) (messageId : M)
  | verifyPending (time : ℕ) (peer : P) (verifyId : Unit) (hashes : List H)
  | verifyResult (peer : P) (verifyId : Unit) (source : TransactionPoolMessageSource M)
  | peerRemove (peer : P)
  | peerTransactionRemove (peer : P) (hash : H)
  | removeInferiorTransactions (hash : Option H)
  | retain (predicate : P → H → CandidateState H B → Bool)

def step (s : CandidatesState P H M B) : Op P H M B → CandidatesState P H M B
  | .infoReceived time peer info => s.infoReceived time peer info
  | .fetchPending time peer hash rpcId => s.fetchPending time peer hash rpcId
  | .transactionReceived time peer transaction => s.transactionReceived time peer transaction
  | .transactionsReceived time peer transactions id => s.transactionsReceived time peer transactions id
  | .verifyPending time peer verifyId hashes => s.verifyPending time peer verifyId hashes
  | .verifyResult peer verifyId source => s.verifyResult peer verifyId source
  | .peerRemove peer => s.peerRemove peer
  | .peerTransactionRemove peer hash => s.peerTransactionRemove peer hash
  | .removeInferiorTransactions hash => s.removeInferiorTransactions hash
  | .retain predicate => s.retain predicate

def run (ops : List (Op P H M B)) : CandidatesState P H M B :=
  ops.foldl step .new

/-- The candidates that a step adds. -/
def Adds : Op P H M B → P → H → Prop
  | .infoReceived _ peer info, p, h => p = peer ∧ h = info.hash
  | .transactionReceived _ peer transaction, p, h => p = peer ∧ h = transaction.hash
  | .transactionsReceived _ peer transactions _, p, h =>
    p = peer ∧ h ∈ transactions.map TransactionWithHash.hash
  | _, _, _ => False

def Removes (s : CandidatesState P H M B) : Op P H M B → P → H → Prop
  | .verifyResult peer verifyId source, _, h =>
    match source with
    | .pubsub id => ∃ sender hashes, s.byMessageId.get id = some (sender, hashes) ∧ h ∈ hashes
    | _ => ∃ state, s.get peer h = some state ∧ state.pendingVerifyId = some verifyId
  | .peerRemove peer, p, _ => p = peer
  | .peerTransactionRemove peer hash, p, h => p = peer ∧ h = hash
  | .removeInferiorTransactions hash, _, h => hash = some h
  | .retain predicate, p, h => ∃ state, s.get p h = some state ∧ predicate p h state = false
  | _, _, _ => False

section
variable {s : CandidatesState P H M B}

/-! ## What one operation does -/

/-- The candidates of `s'` are those of `s`, but for `removes`, and `adds`. -/
structure Changes (s s' : CandidatesState P H M B) (adds removes : P → H → Prop) : Prop where
  consistent : s'.table.Consistent
  get : ∀ p h, (s'.get p h).isSome = true ↔ adds p h ∨ (s.get p h).isSome = true ∧ ¬ removes p h

variable (time : ℕ) (peer : P)

theorem get_infoReceived (info : TransactionInfo H) (p : P) (h : H) :
    (s.infoReceived time peer info).get p h =
      if p = peer ∧ h = info.hash then some (.infoReceived time info) else s.get p h :=
  cell_set ..

theorem get_transactionReceived (transaction : TransactionWithHash H B) (p : P) (h : H) :
    (s.transactionReceived time peer transaction).get p h =
      if p = peer ∧ h = transaction.hash then some (.received time transaction) else s.get p h :=
  cell_set ..

theorem get_transactionRemove (consistent : s.table.Consistent) (hash : H) (p : P) (h : H) :
    (s.transactionRemove hash).get p h = if h = hash then none else s.get p h :=
  consistent.cell_removeColumn ..

theorem get_peerRemove (p : P) (h : H) : (s.peerRemove peer).get p h = if p = peer then none else s.get p h :=
  cell_removeRow ..

theorem get_peerTransactionRemove (hash : H) (p : P) (h : H) :
    (s.peerTransactionRemove peer hash).get p h = if p = peer ∧ h = hash then none else s.get p h :=
  cell_removeCell ..

theorem isSome_modifyCell (hash : H) (f : CandidateState H B → CandidateState H B) (p : P) (h : H) :
    (CandidatesState.get { s with table := s.table.modifyCell peer hash f } p h).isSome =
      (s.get p h).isSome :=
  isSome_modifyRow ..

theorem get_retain (consistent : s.table.Consistent) (predicate : P → H → CandidateState H B → Bool) (p : P)
    (h : H) : (s.retain predicate).get p h = (s.get p h).filter (predicate p h) :=
  consistent.cell_retain ..

theorem foldl_transactionReceived (time : ℕ) (peer : P) :
    ∀ (txs : List (TransactionWithHash H B)) (s : CandidatesState P H M B),
    s.table.Consistent →
    let s' := txs.foldl (fun s tx => s.transactionReceived time peer tx) s
    s'.byMessageId = s.byMessageId ∧
      Changes s s' (fun p h => p = peer ∧ h ∈ txs.map TransactionWithHash.hash) fun _ _ => False
  | [], s, h => ⟨rfl, h, fun p hash => by simp⟩
  | tx :: txs, s, h => by
    obtain ⟨messages, rest, cells⟩ :=
      foldl_transactionReceived time peer txs (s.transactionReceived time peer tx) (h.set peer tx.hash _)
    refine ⟨messages, rest, fun p hash => ?_⟩
    rw [foldl_cons, cells, get_transactionReceived]
    by_cases eq : p = peer ∧ hash = tx.hash
    · simp [eq]
    · rw [if_neg eq, map_cons, mem_cons]
      tauto

theorem foldl_transactionRemove : ∀ (hashes : List H) (s : CandidatesState P H M B), s.table.Consistent →
    let s' := hashes.foldl CandidatesState.transactionRemove s
    s'.byMessageId = s.byMessageId ∧ Changes s s' (fun _ _ => False) fun _ h => h ∈ hashes
  | [], s, h => ⟨rfl, h, fun p hash => by simp⟩
  | hash :: hashes, s, h => by
    obtain ⟨messages, rest, cells⟩ := foldl_transactionRemove hashes (s.transactionRemove hash) (h.removeColumn hash)
    refine ⟨messages, rest, fun p hash' => ?_⟩
    rw [foldl_cons, cells, get_transactionRemove h]
    by_cases eq : hash' = hash
    · simp [eq]
    · simp [eq]

theorem mem_pendingHashes {peer : P} {verifyId : Unit} {hash : H} : hash ∈ s.pendingHashes peer verifyId ↔
      ∃ state, s.get peer hash = some state ∧ state.pendingVerifyId = some verifyId := by
  unfold CandidatesState.pendingHashes CandidatesState.get cell cellOf
  cases s.table.rows.get peer with
  | none => simp
  | some candidates =>
    simp [mem_map, mem_filter, decide_eq_true_eq, Prod.exists, exists_and_right, exists_eq_right, Option.bind_some, get_eq_some]

theorem foldl_modifyCell (peer : P) (f : CandidateState H B → CandidateState H B) :
    ∀ (hashes : List H) (s : CandidatesState P H M B), s.table.Consistent →
    let s' := hashes.foldl (fun s hash => { s with table := s.table.modifyCell peer hash f }) s
    s'.byMessageId = s.byMessageId ∧ Changes s s' (fun _ _ => False) fun _ _ => False
  | [], s, h => ⟨rfl, h, fun p hash => by simp⟩
  | hash :: hashes, s, h => by
    obtain ⟨messages, rest, cells⟩ := foldl_modifyCell peer f hashes
      { s with table := s.table.modifyCell peer hash f } (h.modifyRow peer _)
    exact ⟨messages, rest, fun p hash' => (cells p hash').trans (by rw [isSome_modifyCell])⟩

theorem step_changes (h : s.table.Consistent) (op : Op P H M B) :
    Changes s (step s op) (Adds op) (Removes s op) := by
  cases op with
  | infoReceived time peer info =>
    refine ⟨h.set peer info.hash _, fun p hash => ?_⟩
    rw [step, get_infoReceived]
    by_cases eq : p = peer ∧ hash = info.hash <;> simp [eq, Adds, Removes]
  | fetchPending time peer hash rpcId =>
    refine ⟨h.modifyRow peer _, fun p hash' => ?_⟩
    rw [step, CandidatesState.fetchPending, isSome_modifyCell]
    simp [Adds, Removes]
  | transactionReceived time peer transaction =>
    refine ⟨h.set peer transaction.hash _, fun p hash => ?_⟩
    rw [step, get_transactionReceived]
    by_cases eq : p = peer ∧ hash = transaction.hash <;> simp [eq, Adds, Removes]
  | transactionsReceived time peer transactions id =>
    obtain ⟨-, consistent, cells⟩ := foldl_transactionReceived time peer transactions
      { s with byMessageId := s.byMessageId.insert id (peer, transactions.map TransactionWithHash.hash) } h
    exact ⟨consistent, cells⟩
  | verifyPending time peer verifyId hashes => exact (foldl_modifyCell peer _ hashes s h).2
  | verifyResult peer verifyId source =>
    cases source with
    | pubsub id =>
      cases found : s.byMessageId.get id with
      | none =>
        rw [step, CandidatesState.verifyResult, found]
        exact ⟨h, fun p hash => by simp [Adds, Removes, found]⟩
      | some message =>
        obtain ⟨sender, hashes⟩ := message
        obtain ⟨-, consistent, cells⟩ :=
          foldl_transactionRemove hashes { s with byMessageId := s.byMessageId.remove id } h
        rw [step, CandidatesState.verifyResult, found]
        refine ⟨consistent, fun p hash => (cells p hash).trans ?_⟩
        simp [Adds, Removes, found, CandidatesState.get]
    | rpc id | none =>
      obtain ⟨-, consistent, cells⟩ := foldl_transactionRemove (s.pendingHashes peer verifyId) s h
      exact ⟨consistent, fun p hash => (cells p hash).trans (by rw [mem_pendingHashes]; rfl)⟩
  | peerRemove peer =>
    refine ⟨h.removeRow peer, fun p hash => ?_⟩
    rw [step, get_peerRemove]
    by_cases eq : p = peer <;> simp [eq, Adds, Removes]
  | peerTransactionRemove peer hash =>
    refine ⟨h.removeCell peer hash, fun p hash' => ?_⟩
    rw [step, get_peerTransactionRemove]
    by_cases eq : p = peer ∧ hash' = hash <;> simp [eq, Adds, Removes]
  | removeInferiorTransactions hash =>
    cases hash with
    | none => exact ⟨h, fun p hash => by simp [step, Adds, Removes, CandidatesState.removeInferiorTransactions]⟩
    | some hash =>
      refine ⟨h.removeColumn hash, fun p hash' => ?_⟩
      rw [step, CandidatesState.removeInferiorTransactions, get_transactionRemove h]
      by_cases eq : hash' = hash
      · simp [eq, Adds, Removes]
      · simp [eq, Ne.symm eq, Adds, Removes]
  | retain predicate =>
    refine ⟨h.retain predicate, fun p hash => ?_⟩
    rw [step, get_retain h]
    cases found : s.get p hash with
    | none => simp [Adds]
    | some state =>
      by_cases stays : predicate p hash state = true <;>
        simp [Adds, Removes, found, stays, Option.filter]

/-! ## The queue of messages -/

/-- Every message of the queue names a peer that has a candidate. -/
def SendersLive (s : CandidatesState P H M B) : Prop :=
  ∀ id peer hashes, s.byMessageId.get id = some (peer, hashes) → ∃ hash, (s.get peer hash).isSome = true

/-- `op` is the result for the message `id`, which takes it off the queue. -/
def Answers : Op P H M B → M → Prop
  | .verifyResult _ _ (.pubsub id), id' => id' = id
  | _, _ => False

/-- The senders of the messages that stay keep a candidate, and a new message has a transaction
    or a live sender. -/
def Safe (s : CandidatesState P H M B) (op : Op P H M B) : Prop :=
  (∀ id peer hashes, s.byMessageId.get id = some (peer, hashes) → ¬ Answers op id →
    ∃ hash, (s.get peer hash).isSome = true ∧ ¬ Removes s op peer hash) ∧
  match op with
  | .transactionsReceived _ peer transactions _ =>
    transactions ≠ [] ∨ ∃ hash, (s.get peer hash).isSome = true
  | _ => True

/-- All steps from `s` are safe, each in the state it is taken in. -/
def AllSafe : CandidatesState P H M B → List (Op P H M B) → Prop
  | _, [] => True
  | s, op :: ops => Safe s op ∧ AllSafe (step s op) ops

theorem get_byMessageId_step (h : s.table.Consistent) (op : Op P H M B) (id : M) :
    (step s op).byMessageId.get id =
      match op with
      | .transactionsReceived _ peer transactions id' =>
        if id = id' then some (peer, transactions.map TransactionWithHash.hash) else s.byMessageId.get id
      | .verifyResult _ _ (.pubsub id') => if id = id' then none else s.byMessageId.get id
      | _ => s.byMessageId.get id := by
  cases op with
  | transactionsReceived time peer transactions id' =>
    have messages := (foldl_transactionReceived time peer transactions
      { s with byMessageId := s.byMessageId.insert id' (peer, transactions.map TransactionWithHash.hash) } h).1
    exact (congrArg (OrdMap.get · id) messages).trans (get_insert ..)
  | verifyPending time peer verifyId hashes =>
    exact congrArg (OrdMap.get · id) (foldl_modifyCell peer _ hashes s h).1
  | verifyResult peer verifyId source =>
    cases source with
    | pubsub id' =>
      dsimp only [step, CandidatesState.verifyResult]
      cases found : s.byMessageId.get id' with
      | none =>
        dsimp only
        split
        · next eq => rw [eq, found]
        · rfl
      | some message =>
        have messages := (foldl_transactionRemove message.2
          { s with byMessageId := s.byMessageId.remove id' } h).1
        exact (congrArg (OrdMap.get · id) messages).trans (get_remove ..)
    | rpc _ | none => exact congrArg (OrdMap.get · id) (foldl_transactionRemove _ s h).1
  | removeInferiorTransactions hash => cases hash <;> rfl
  | _ => rfl

theorem get_byMessageId_of_not_answers (h : s.table.Consistent) {op : Op P H M B}
    {id : M} (stays : ¬ Answers op id)
    (other : ∀ time peer transactions id', op = .transactionsReceived time peer transactions id' → id ≠ id') :
    (step s op).byMessageId.get id = s.byMessageId.get id := by
  rw [get_byMessageId_step h]
  split
  · next time peer transactions id' => rw [if_neg (other _ _ _ _ rfl)]
  · next id' =>
    have ne : ¬ id = id' := stays
    rw [if_neg ne]
  · rfl

theorem not_removes_of_adds {op : Op P H M B} {p : P} {h : H} (adds : Adds op p h)
    (p' : P) (h' : H) : ¬ Removes s op p' h' := by
  cases op <;> simp_all [Adds, Removes]

theorem step_live (h : s.table.Consistent) (live : SendersLive s) (op : Op P H M B) :
    SendersLive (step s op) ↔ Safe s op := by
  have changes := step_changes h op
  constructor
  · intro live'
    refine ⟨fun id peer hashes found stays => ?_, ?_⟩
    · by_cases adds : ∃ p hash, Adds op p hash
      · obtain ⟨p, hash, adds⟩ := adds
        obtain ⟨hash', some⟩ := live id peer hashes found
        exact ⟨hash', some, not_removes_of_adds adds peer hash'⟩
      · by_cases other : ∃ time peer transactions, op = .transactionsReceived time peer transactions id
        · obtain ⟨time, peer', transactions, rfl⟩ := other
          obtain ⟨hash', some⟩ := live id peer hashes found
          exact ⟨hash', some, fun removed => removed⟩
        · rw [← get_byMessageId_of_not_answers h stays fun time peer transactions id' eq eq' =>
            other ⟨time, peer, transactions, eq' ▸ eq⟩] at found
          obtain ⟨hash, some⟩ := live' id peer hashes found
          exact ⟨hash, ((changes.get peer hash).1 some).resolve_left fun a => adds ⟨peer, hash, a⟩⟩
    · cases op with
      | transactionsReceived time peer transactions id =>
        obtain ⟨hash, some⟩ := live' id peer (transactions.map TransactionWithHash.hash)
          ((get_byMessageId_step h _ id).trans (if_pos rfl))
        rcases (changes.get peer hash).1 some with ⟨-, mem⟩ | ⟨some, -⟩
        · exact .inl fun nil => by simp [nil] at mem
        · exact .inr ⟨hash, some⟩
      | _ => trivial
  · rintro ⟨keeps, received⟩ id peer hashes found
    by_cases stays : Answers op id
    · cases op with
      | verifyResult peer' verifyId source =>
        cases source with
        | pubsub id' =>
          have eq : id = id' := stays
          have gone := get_byMessageId_step h (.verifyResult peer' verifyId (.pubsub id')) id
          rw [found] at gone
          simp [eq] at gone
        | rpc | none => exact stays.elim
      | _ => exact stays.elim
    · by_cases new : ∃ time peer transactions, op = .transactionsReceived time peer transactions id
      · obtain ⟨time, peer', transactions, rfl⟩ := new
        rw [get_byMessageId_step h] at found
        obtain ⟨rfl, rfl⟩ := by simpa using found
        rcases received with some | ⟨hash, some⟩
        · obtain ⟨tx, mem⟩ := exists_mem_of_ne_nil _ some
          exact ⟨tx.hash, (changes.get _ _).2 (.inl ⟨rfl, mem_map_of_mem mem⟩)⟩
        · exact ⟨hash, (changes.get _ _).2 (.inr ⟨some, fun removed => removed⟩)⟩
      · rw [get_byMessageId_of_not_answers h stays fun time peer transactions id' eq eq' =>
          new ⟨time, peer, transactions, eq' ▸ eq⟩] at found
        obtain ⟨hash, some⟩ := keeps id peer hashes found stays
        exact ⟨hash, (changes.get peer hash).2 (.inr some)⟩

theorem nextBatchFromPubsub_isSome (live : SendersLive s) (queued : s.byMessageId.entries ≠ []) :
    s.nextBatchFromPubsub.isSome = true := by
  unfold CandidatesState.nextBatchFromPubsub
  cases messages : s.byMessageId.entries with
  | nil => exact absurd messages queued
  | cons message rest =>
    obtain ⟨id, peer, hashes⟩ := message
    obtain ⟨hash, some⟩ := live id peer hashes (get_eq_some.2 (by simp [messages]))
    unfold CandidatesState.get cell cellOf at some
    cases row : s.table.rows.get peer with
    | none => simp [row] at some
    | some candidates => simp [row]

theorem foldl_consistent : ∀ (ops : List (Op P H M B))
    {s : CandidatesState P H M B}, s.table.Consistent →
    (ops.foldl step s).table.Consistent
  | [], _, h => h
  | op :: ops, _, h => foldl_consistent ops (step_changes h op).consistent

theorem foldl_live : ∀ (ops : List (Op P H M B))
    {s : CandidatesState P H M B}, s.table.Consistent → SendersLive s →
    ((∀ ops₁ ops₂, ops = ops₁ ++ ops₂ → SendersLive (ops₁.foldl step s)) ↔ AllSafe s ops)
  | [], s, _, live => by
    refine ⟨fun _ => trivial, fun _ ops₁ ops₂ split => ?_⟩
    rw [(append_eq_nil_iff.1 split.symm).1]
    exact live
  | op :: ops, s, h, live => by
    have first := step_live h live op
    constructor
    · intro all
      have live' : SendersLive (step s op) := all [op] ops rfl
      refine ⟨first.1 live', (foldl_live ops (step_changes h op).consistent live').1 ?_⟩
      intro ops₁ ops₂ split
      exact all (op :: ops₁) ops₂ (by rw [split]; rfl)
    · rintro ⟨safe, rest⟩ ops₁ ops₂ split
      have later := (foldl_live ops (step_changes h op).consistent (first.2 safe)).2 rest
      cases ops₁ with
      | nil => exact live
      | cons op' ops₁ =>
        obtain ⟨rfl, rfl⟩ := List.cons.inj split
        exact later ops₁ ops₂ rfl

theorem new_consistent : (CandidatesState.new : CandidatesState P H M B).table.Consistent :=
  .empty

theorem new_live : SendersLive (.new : CandidatesState P H M B) := by
  intro id peer hashes found
  cases found

/-- **The indexes of the candidates.**  After every run `by_hash` and `by_peer` describe
    the same pairs and no hash is without a peer.  The senders of the queued messages
    have candidates all along the run exactly when its steps are safe, and the queue
    then has a next batch unless it is empty. -/
theorem run_consistent (ops : List (Op P H M B)) : (run ops).table.Consistent ∧
      ((∀ ops₁ ops₂, ops = ops₁ ++ ops₂ → SendersLive (run ops₁)) ↔ AllSafe .new ops) ∧
      (SendersLive (run ops) → (run ops).byMessageId.entries ≠ [] →
        (run ops).nextBatchFromPubsub.isSome = true) :=
  ⟨foldl_consistent ops new_consistent, foldl_live ops new_consistent new_live, nextBatchFromPubsub_isSome⟩

/-- Peer `1` sends the message `7` and leaves before it is verified.  Its message stays at
    the head of the queue, and the message `8` of peer `2` is not offered. -/
theorem departed_peer_blocks_queue :
    let s : CandidatesState ℕ ℕ ℕ Unit := run [.transactionsReceived 0 1 [⟨5, ()⟩] 7,
      .transactionsReceived 0 2 [⟨6, ()⟩] 8, .peerRemove 1]
    s.byMessageId.entries = [(7, 1, [5]), (8, 2, [6])] ∧ (s.table.rows.get 1).isNone = true ∧
      (s.get 2 6).isSome = true ∧ s.nextBatchFromPubsub.isNone = true := by
  decide

end

end MinaRust.TransactionPool.Candidates
