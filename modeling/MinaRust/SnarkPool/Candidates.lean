/-
  The snarks that peers offer (`node/src/snark_pool/candidate/snark_pool_candidate_state.rs`).

  `get_batch_to_verify` stops at the first peer that has *any* work for a job, also one that
  was verified before, so that its batch can be empty while other candidates wait.
-/
import MinaRust.SnarkPool.Snark

set_option linter.unusedSectionVars false

namespace MinaRust.SnarkPool.CandidatesState

open List SparseTable

variable {P J R F D T : Type} [LinearOrder P] [LinearOrder J] [LinearOrder D]

/-- The predicate may answer differently from call to call, so that its answers depend on
    the candidate. -/
def retain (s : CandidatesState P J R F) (predicate : P → J → CandidateState J R F → Bool) :
    CandidatesState P J R F :=
  SparseTable.retain s predicate

variable (W : Params J R F D T) (s : CandidatesState P J R F)

/-- `check`: the number of candidates, and the pairs that only one of the indexes has. -/
def check : ℕ × List (P × J) :=
  let len := (s.rows.entries.map fun e => e.2.entries.length).sum
  let lhs := s.columns.entries.flatMap fun e => e.2.keys.map fun peer => (peer, e.1)
  let rhs := s.rows.entries.flatMap fun e => e.2.keys.map fun jobId => (e.1, jobId)
  (len, lhs.filter (fun pair => !rhs.contains pair) ++ rhs.filter fun pair => !lhs.contains pair)

inductive Operation (P J R F : Type) where
  | op (op : Op P J R F)
  | removeInferiorSnarks (snark : Snark R F)
  | retain (predicate : P → J → CandidateState J R F → Bool)

def step : Operation P J R F → CandidatesState P J R F
  | .op op => s.apply W op
  | .removeInferiorSnarks snark => s.removeInferiorSnarks W snark
  | .retain predicate => s.retain predicate

def run (ops : List (Operation P J R F)) : CandidatesState P J R F :=
  ops.foldl (step W) .empty

/-! ## The indexes -/

section
variable {s s' : CandidatesState P J R F} {W : Params J R F D T}

/-- Every candidate is stored under the job of its own work. -/
def Own (W : Params J R F D T) (s : CandidatesState P J R F) : Prop :=
  ∀ peer jobId state, s.cell peer jobId = some state → (W.cmpOfCandidate state).jobId = jobId

theorem Own.modifyRow (own : Own W s) (peer : P) {f : J → CandidateState J R F → CandidateState J R F}
    (same : ∀ jobId state, (W.cmpOfCandidate (f jobId state)).jobId = (W.cmpOfCandidate state).jobId) :
    Own W (s.modifyRow peer f) := by
  intro p jobId state found
  rw [cell_modifyRow] at found
  split at found
  · obtain ⟨old, cell, rfl⟩ := Option.map_eq_some_iff.1 found
    rw [same, own p jobId old cell]
  · exact own p jobId state found

theorem Own.modifyCell (own : Own W s) (peer : P) (jobId : J) {f : CandidateState J R F → CandidateState J R F}
    (same : ∀ state, (W.cmpOfCandidate (f state)).jobId = (W.cmpOfCandidate state).jobId) :
    Own W (s.modifyCell peer jobId f) := by
  refine own.modifyRow peer fun jobId' state => ?_
  split
  · exact same state
  · rfl

theorem Own.set (own : Own W s) (peer : P) {jobId : J} {state : CandidateState J R F}
    (job : (W.cmpOfCandidate state).jobId = jobId) : Own W (s.set peer jobId state) := by
  intro p j state' found
  rw [cell_set] at found
  split at found
  · next eq =>
    cases found
    rw [job, eq.2]
  · exact own p j state' found

theorem Own.mono (own : Own W s) (sub : ∀ p j state, s'.cell p j = some state → s.cell p j = some state) :
    Own W s' :=
  fun p j state found => own p j state (sub p j state found)

theorem Own.apply (own : Own W s) (op : Op P J R F) : Own W (s.apply W op) := by
  cases op with
  | infoReceived time peer info => exact own.set peer rfl
  | workFetchPending time peer jobId rpcId =>
    exact own.modifyCell peer jobId fun state => by cases state <;> rfl
  | workReceived time peer work => exact own.set peer rfl
  | verifyPending time peer verifyId jobIds =>
    unfold CandidatesState.apply verifyPending
    induction jobIds generalizing s with
    | nil => exact own
    | cons jobId jobIds ih => exact ih (own.modifyCell peer jobId fun state => by cases state <;> rfl)
  | verifyResult time peer verifyId result =>
    refine own.modifyRow peer fun jobId state => ?_
    split
    · cases state <;> cases result <;> rfl
    · rfl
  | peerRemove peer =>
    refine own.mono fun p j state found => ?_
    rw [CandidatesState.apply, peerRemove, cell_removeRow] at found
    split at found
    · cases found
    · exact found
  | peerWorkRemove peer jobId =>
    refine own.mono fun p j state found => ?_
    rw [CandidatesState.apply, peerWorkRemove, cell_removeCell] at found
    split at found
    · cases found
    · exact found

theorem step_indexed (h : s.Consistent) (own : Own W s) (op : Operation P J R F) :
    (s.step W op).Consistent ∧ Own W (s.step W op) := by
  cases op with
  | op op => exact ⟨apply_consistent W h op, own.apply op⟩
  | removeInferiorSnarks snark =>
    refine ⟨h.retainColumn _ _, own.mono fun p j state found => ?_⟩
    rw [step, removeInferiorSnarks, h.cell_retainColumn] at found
    split at found
    · exact (Option.filter_eq_some_iff.1 found).1
    · exact found
  | retain predicate =>
    refine ⟨h.retain _, own.mono fun p j state found => ?_⟩
    rw [step, retain, h.cell_retain] at found
    exact (Option.filter_eq_some_iff.1 found).1

theorem foldl_indexed (h : s.Consistent) (own : Own W s) (ops : List (Operation P J R F)) :
    (ops.foldl (step W) s).Consistent ∧ Own W (ops.foldl (step W) s) := by
  induction ops generalizing s with
  | nil => exact ⟨h, own⟩
  | cons op ops ih =>
    obtain ⟨h', own'⟩ := step_indexed h own op
    exact ih h' own'

theorem run_consistent_own (W : Params J R F D T) (ops : List (Operation P J R F)) :
    (run W ops).Consistent ∧ Own W (run W ops) :=
  foldl_indexed .empty (fun _ _ _ found => nomatch found) ops

theorem check_eq_nil (h : s.Consistent) : s.check.2 = [] := by
  have lhs : ∀ peer jobId, (peer, jobId) ∈ s.columns.entries.flatMap
      (fun e => e.2.keys.map fun peer => (peer, e.1)) ↔ (s.cell peer jobId).isSome = true := by
    intro peer jobId
    rw [← h.lists]
    simp [SparseTable.lists, SparseTable.contains_iff, Option.any_eq_true, OrdMap.get_eq_some]
  have rhs : ∀ peer jobId, (peer, jobId) ∈ s.rows.entries.flatMap
      (fun e => e.2.keys.map fun jobId => (e.1, jobId)) ↔ (s.cell peer jobId).isSome = true := by
    intro peer jobId
    simp [SparseTable.cell, SparseTable.cellOf, ← SparseTable.contains_iff, OrdMap.contains,
      Option.isSome_bind, Option.any_eq_true, OrdMap.get_eq_some]
  rw [check, append_eq_nil_iff, filter_eq_nil_iff, filter_eq_nil_iff]
  constructor <;> rintro ⟨peer, jobId⟩ mem <;> simp_all

/-- **The indexes of the candidates**, after every sequence of operations. -/
theorem run_indexed (W : Params J R F D T) (ops : List (Operation P J R F)) :
    (run W ops).Consistent ∧ Own W (run W ops) ∧ (run W ops).check.2 = [] :=
  have indexed := run_consistent_own W ops
  ⟨indexed.1, indexed.2, check_eq_nil indexed.1⟩

end

/-! ## The next batch to verify -/

def receivedWork : CandidateState J R F → Option (Snark R F)
  | .workReceived _ work => some work
  | _ => none

/-- Up to the first peer that has sent a work; the loop also ends at a peer without the
    candidate. -/
def batchFromPeersOf (s : CandidatesState P J R F) (jobId : J) : List P → Option (P × List (Snark R F))
  | [] => none
  | peer :: peers => do
    let peerJobs ← s.rows.get peer
    let state ← peerJobs.get jobId
    if state.work.isSome then return (peer, peerJobs.entries.filterMap fun e => receivedWork e.2)
    else s.batchFromPeersOf jobId peers

def getBatchToVerify (jobIdsOrdered : List J) : Option (P × List (Snark R F)) :=
  jobIdsOrdered.findSome? fun jobId => do s.batchFromPeersOf jobId (← s.columns.get jobId).keys

/-- The peer has a work for the job that waits for its verification. -/
def Received (peer : P) (jobId : J) : Prop :=
  ∃ time work, s.cell peer jobId = some (.workReceived time work)

variable (jobIds : List J)

/-- The peer has a received work for the first of the jobs for which there is one. -/
def ServesFirst (peer : P) : Prop :=
  ∃ before jobId after, jobIds = before ++ jobId :: after ∧ s.Received peer jobId ∧
    ∀ j ∈ before, ∀ p, ¬ s.Received p j

/-- The batch is what the next verification should be about. -/
structure Progress (s : CandidatesState P J R F) (jobIds : List J) : Prop where
  isSome_iff : (s.getBatchToVerify jobIds).isSome = true ↔ ∃ jobId ∈ jobIds, ∃ peer, s.Received peer jobId
  batch : ∀ peer batch, s.getBatchToVerify jobIds = some (peer, batch) → batch ≠ [] ∧
    (∀ work, work ∈ batch ↔ ∃ jobId time, s.cell peer jobId = some (.workReceived time work)) ∧
    s.ServesFirst jobIds peer

/-- The first peer with a work in any state for the first of the jobs that has one. -/
def front : Option P :=
  jobIds.findSome? fun jobId => ((s.columns.get jobId).elim [] OrdMap.keys).find? fun peer =>
    (s.cell peer jobId).any fun state => state.work.isSome

section
variable {s : CandidatesState P J R F} {jobIds : List J} {peer : P}

def receivedWorks (s : CandidatesState P J R F) (peer : P) : List (Snark R F) :=
  ((s.rows.get peer).elim [] OrdMap.entries).filterMap fun e => receivedWork e.2

theorem batchFromPeersOf_eq {jobId : J} : ∀ {peers : List P},
    (∀ peer ∈ peers, (s.cell peer jobId).isSome = true) → s.batchFromPeersOf jobId peers =
      (peers.find? fun peer => (s.cell peer jobId).any fun state => state.work.isSome).map
        fun peer => (peer, s.receivedWorks peer)
  | [], _ => rfl
  | peer :: peers, cells => by
    obtain ⟨first, rest⟩ := forall_mem_cons.1 cells
    rw [batchFromPeersOf, batchFromPeersOf_eq rest, List.find?_cons]
    unfold SparseTable.cell SparseTable.cellOf at first ⊢
    obtain ⟨state, found⟩ := Option.isSome_iff_exists.1 first
    obtain ⟨peerJobs, row, cell⟩ := Option.bind_eq_some_iff.1 found
    cases work : state.work <;> simp [row, cell, work, receivedWorks]

theorem getBatchToVerify_eq (h : s.Consistent) (jobIds : List J) :
    s.getBatchToVerify jobIds = (s.front jobIds).map fun peer => (peer, s.receivedWorks peer) := by
  unfold getBatchToVerify front
  rw [map_findSome?]
  congr 1
  funext jobId
  rw [Function.comp_apply]
  cases found : s.columns.get jobId with
  | none => rfl
  | some peers =>
    refine batchFromPeersOf_eq fun peer mem => ?_
    rw [h.isSome_cell found, decide_eq_true mem]

theorem mem_receivedWorks {work : Snark R F} :
    work ∈ s.receivedWorks peer ↔ ∃ jobId time, s.cell peer jobId = some (.workReceived time work) := by
  have received : ∀ state : CandidateState J R F, receivedWork state = some work ↔
      ∃ time, state = .workReceived time work := by
    intro state
    cases state <;> simp [receivedWork]
  unfold receivedWorks SparseTable.cell SparseTable.cellOf
  cases s.rows.get peer with
  | none => simp
  | some peerJobs => simp [received, OrdMap.get_eq_some]

theorem front_isSome (h : s.Consistent) {jobId : J} (listed : jobId ∈ jobIds) (received : s.Received peer jobId) :
    (s.front jobIds).isSome = true := by
  obtain ⟨time, work, cell⟩ := received
  rw [front, isSome_findSome?, any_eq_true]
  refine ⟨jobId, listed, ?_⟩
  rw [List.find?_isSome]
  cases found : s.columns.get jobId with
  | none => simp [h.cell_eq_none found] at cell
  | some peers =>
    have mem := h.isSome_cell found peer
    rw [cell, Option.isSome_some, eq_comm, decide_eq_true_eq] at mem
    exact ⟨peer, mem, by simp [cell, CandidateState.work]⟩

end

def numbered : Params ℕ ℕ ℕ ℕ ℕ := ⟨id, id, fun _ prover => prover⟩

/-- Peer `1` sends the work for the job `5`, peer `2` that for the job `6`, and the first is
    being verified. -/
def verifying : CandidatesState ℕ ℕ ℕ ℕ :=
  run numbered [.op (.workReceived 0 1 ⟨0, 3, 5⟩), .op (.workReceived 0 2 ⟨0, 3, 6⟩), .op (.verifyPending 0 1 0 [5])]

end MinaRust.SnarkPool.CandidatesState
