/-
  Snarks and their order (`core/src/snark`), and the snarks that peers offer
  (`node/src/snark_pool/candidate/snark_pool_candidate_state.rs`).

  All are compared through `SnarkCmp`: by the job, then the lower fee, then the tie-breaker
  hash of the prover.  `J` are the ids of jobs `T`, `R` the provers, `F` the proofs and `D`
  the digests.
-/
import MinaRust.Lib.SparseTable

set_option linter.unusedSectionVars false

namespace MinaRust.SnarkPool

/-- The job id of a proof's statements, the job id of a job, and the digest that breaks ties. -/
structure Params (J R F D T : Type) where
  jobId : F → J
  idOfJob : T → J
  tieBreakerHash : J → R → D

structure Snark (R F : Type) where
  snarker : R
  fee : ℕ
  proofs : F
  deriving DecidableEq

structure SnarkInfo (J R : Type) where
  jobId : J
  fee : ℕ
  prover : R

@[ext]
structure SnarkCmp (J R : Type) where
  jobId : J
  fee : ℕ
  prover : R
  deriving DecidableEq

inductive CandidateState (J R F : Type) where
  | infoReceived (time : ℕ) (info : SnarkInfo J R)
  | workFetchPending (time : ℕ) (info : SnarkInfo J R) (rpcId : ℕ)
  | workReceived (time : ℕ) (work : Snark R F)
  | workVerifyPending (time : ℕ) (work : Snark R F) (verifyId : ℕ)
  | workVerifyError (time : ℕ) (work : Snark R F)
  | workVerifySuccess (time : ℕ) (work : Snark R F)

variable {J R F D T : Type}

def cmpOfInfo (info : SnarkInfo J R) : SnarkCmp J R := ⟨info.jobId, info.fee, info.prover⟩

namespace Params

variable (W : Params J R F D T)

def jobIdOf (snark : Snark R F) : J := W.jobId snark.proofs

def cmpOfSnark (snark : Snark R F) : SnarkCmp J R :=
  ⟨W.jobIdOf snark, snark.fee, snark.snarker⟩

def cmpOfCandidate : CandidateState J R F → SnarkCmp J R
  | .infoReceived _ info | .workFetchPending _ info _ => cmpOfInfo info
  | .workReceived _ work | .workVerifyPending _ work _ | .workVerifyError _ work
  | .workVerifySuccess _ work => W.cmpOfSnark work

variable [LinearOrder J] [LinearOrder D]

/-- `Ord::cmp` of `SnarkCmp`: the lower fee is the greater snark. -/
def cmp (a b : SnarkCmp J R) : Ordering :=
  ((compare a.jobId b.jobId).then (compare a.fee b.fee).swap).then
    (compare (W.tieBreakerHash a.jobId a.prover) (W.tieBreakerHash b.jobId b.prover))

def rank (a : SnarkCmp J R) : J ×ₗ (ℕᵒᵈ ×ₗ D) :=
  toLex (a.jobId, toLex (OrderDual.toDual a.fee, W.tieBreakerHash a.jobId a.prover))

variable {W}

theorem cmp_eq_gt {a b : SnarkCmp J R} : W.cmp a b = .gt ↔ W.rank b < W.rank a := by
  simp only [cmp, rank, Ordering.then_eq_gt, Ordering.then_eq_eq, Ordering.swap_eq_gt,
    Ordering.swap_eq_eq, compare_lt_iff_lt, compare_gt_iff_gt, compare_eq_iff_eq,
    Prod.Lex.toLex_lt_toLex, OrderDual.toDual_lt_toDual, OrderDual.toDual_inj]
  constructor
  · rintro ((lt | ⟨eq, lt⟩) | ⟨⟨eq, eq'⟩, lt⟩)
    · exact .inl lt
    · exact .inr ⟨eq.symm, .inl lt⟩
    · exact .inr ⟨eq.symm, .inr ⟨eq'.symm, lt⟩⟩
  · rintro (lt | ⟨eq, lt | ⟨eq', lt⟩⟩)
    · exact .inl (.inl lt)
    · exact .inl (.inr ⟨eq.symm, lt⟩)
    · exact .inr ⟨⟨eq.symm, eq'.symm⟩, lt⟩

/-- Snarks of one rank agree in the job, the fee and the prover, which is what `==` compares. -/
theorem rank_injective (injective : ∀ job, Function.Injective (W.tieBreakerHash job)) :
    Function.Injective W.rank := by
  intro a b eq
  simp only [rank, toLex_inj, Prod.mk.injEq, OrderDual.toDual_inj] at eq
  obtain ⟨job, fee, digest⟩ := eq
  rw [job] at digest
  exact SnarkCmp.ext job fee (injective b.jobId digest)

end Params

/-! ## Candidates -/

namespace CandidateState

def work : CandidateState J R F → Option (Snark R F)
  | infoReceived .. | workFetchPending .. => none
  | workReceived _ work | workVerifyPending _ work _ | workVerifyError _ work
  | workVerifySuccess _ work => some work

def pendingVerifyId : CandidateState J R F → Option ℕ
  | workVerifyPending _ _ verifyId => some verifyId
  | _ => none

end CandidateState

/-- `by_peer`, by rows, and `by_job_id`, its columns. -/
abbrev CandidatesState (P J R F : Type) [LinearOrder P] [LinearOrder J] : Type :=
  SparseTable P J (CandidateState J R F)

namespace CandidatesState

variable {P : Type} [LinearOrder P] [LinearOrder J]

def infoReceived (s : CandidatesState P J R F) (time : ℕ) (peer : P)
    (info : SnarkInfo J R) : CandidatesState P J R F :=
  s.set peer info.jobId (.infoReceived time info)

def workFetchPending (s : CandidatesState P J R F) (time : ℕ) (peer : P)
    (jobId : J) (rpcId : ℕ) : CandidatesState P J R F :=
  s.modifyCell peer jobId fun
    | .infoReceived _ info => .workFetchPending time info rpcId
    | state => state

def workReceived (W : Params J R F D T) (s : CandidatesState P J R F)
    (time : ℕ) (peer : P) (work : Snark R F) : CandidatesState P J R F :=
  s.set peer (W.jobIdOf work) (.workReceived time work)

variable (W : Params J R F D T) (s : CandidatesState P J R F) (time : ℕ) (peer : P) (verifyId : ℕ)

def verifyPending (jobIds : List J) : CandidatesState P J R F :=
  jobIds.foldl (fun s jobId => s.modifyCell peer jobId fun
    | .workReceived _ work => .workVerifyPending time work verifyId
    | state => state) s

def verifyResult (result : Bool) : CandidatesState P J R F :=
  s.modifyRow peer fun _ state =>
    if state.pendingVerifyId = some verifyId then
      match state with
      | .workVerifyPending _ work _ => if result then .workVerifySuccess time work else .workVerifyError time work
      | state => state
    else state

def peerRemove : CandidatesState P J R F :=
  s.removeRow peer

def peerWorkRemove (jobId : J) : CandidatesState P J R F :=
  s.removeCell peer jobId

variable [LinearOrder D]

/-- A candidate goes when `snark >= work`. -/
def removeInferiorSnarks (snark : Snark R F) : CandidatesState P J R F :=
  s.retainColumn (fun _ _ work => !decide (W.cmp (W.cmpOfSnark snark) (W.cmpOfCandidate work) ≠ .lt))
    (W.jobIdOf snark)

/-- The actions of the candidates that touch nothing else. -/
inductive Op (P J R F : Type) where
  | infoReceived (time : ℕ) (peer : P) (info : SnarkInfo J R)
  | workFetchPending (time : ℕ) (peer : P) (jobId : J) (rpcId : ℕ)
  | workReceived (time : ℕ) (peer : P) (work : Snark R F)
  | verifyPending (time : ℕ) (peer : P) (verifyId : ℕ) (jobIds : List J)
  | verifyResult (time : ℕ) (peer : P) (verifyId : ℕ) (result : Bool)
  | peerRemove (peer : P)
  | peerWorkRemove (peer : P) (jobId : J)

def apply : Op P J R F → CandidatesState P J R F
  | .infoReceived time peer info => s.infoReceived time peer info
  | .workFetchPending time peer jobId rpcId => s.workFetchPending time peer jobId rpcId
  | .workReceived time peer work => s.workReceived W time peer work
  | .verifyPending time peer verifyId jobIds => s.verifyPending time peer verifyId jobIds
  | .verifyResult time peer verifyId result => s.verifyResult time peer verifyId result
  | .peerRemove peer => s.peerRemove peer
  | .peerWorkRemove peer jobId => s.peerWorkRemove peer jobId

theorem apply_consistent {s : CandidatesState P J R F} (h : s.Consistent) (op : Op P J R F) :
    (s.apply W op).Consistent := by
  cases op with
  | infoReceived time peer info => exact h.set peer info.jobId _
  | workFetchPending time peer jobId rpcId => exact h.modifyRow peer _
  | workReceived time peer work => exact h.set peer (W.jobIdOf work) _
  | verifyPending time peer verifyId jobIds =>
    unfold apply verifyPending
    induction jobIds generalizing s with
    | nil => exact h
    | cons jobId jobIds ih => exact ih (h.modifyRow peer _)
  | verifyResult time peer verifyId result => exact h.modifyRow peer _
  | peerRemove peer => exact h.removeRow peer
  | peerWorkRemove peer jobId => exact h.removeCell peer jobId

end CandidatesState

end MinaRust.SnarkPool
