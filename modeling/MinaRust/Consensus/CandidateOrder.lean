/-
  The order of the transition frontier candidates
  (`transition_frontier_candidate_state.rs`).

  The fork choice of two candidates follows their keys (length, VRF, hash) unless the pair is
  `Upset`: a far fork in which the density decides against the keys.
-/
import Mathlib.Data.List.Sort
import MinaRust.Lib.Tournament
import MinaRust.Consensus.ForkChoice

namespace MinaRust.Consensus

open List Except

variable {V D H : Type} [LinearOrder D] [LinearOrder H] (blake2b : V → D)

/-- The part of `TransitionFrontierCandidateState` that the order reads: the block. -/
structure Candidate (V H : Type) where
  consensusState : ConsensusState V H
  hash : H
  deriving DecidableEq, Repr

namespace Candidate

def cmp (self other : Candidate V H) : Except Panic Ordering :=
  if self.hash = other.hash then .ok .eq
  else do
    let isCandidateBetter ←
      consensusTake blake2b self.consensusState other.consensusState self.hash other.hash
    match isCandidateBetter with
    | true => return .lt
    | false => return .gt

/-- Insertion into the ordered set, upwards from the least element. -/
def insert (c : Candidate V H) : List (Candidate V H) → Except Panic (List (Candidate V H))
  | [] => .ok [c]
  | d :: ds => do
    match ← cmp blake2b c d with
    | .lt => return c :: d :: ds
    | .eq => return d :: ds
    | .gt => return d :: (← insert c ds)

def arrive (arrivals : List (Candidate V H)) : Except Panic (List (Candidate V H)) :=
  arrivals.foldlM (fun ordered c => insert blake2b c ordered) []

/-! ## Keys and upset pairs -/

def key (c : Candidate V H) : ℕ ×ₗ D ×ₗ H := Consensus.key blake2b c.consensusState c.hash

/-- A far fork whose densities decide against the keys. -/
def Upset (a b : Candidate V H) : Prop :=
  ¬ Near a.consensusState b.consensusState ∧ ((key blake2b a < key blake2b b ∧
        relativeDensity b.consensusState a.consensusState <
          relativeDensity a.consensusState b.consensusState) ∨
      (key blake2b b < key blake2b a ∧ relativeDensity a.consensusState b.consensusState <
          relativeDensity b.consensusState a.consensusState))

instance (a b : Candidate V H) : Decidable (Upset blake2b a b) :=
  inferInstanceAs (Decidable (_ ∧ _))

theorem upset_comm (a b : Candidate V H) : Upset blake2b a b ↔ Upset blake2b b a := by
  unfold Upset
  rw [Near.symm_iff a.consensusState, or_comm]

variable {a b : Candidate V H}

/-- The fork choice is the order of the keys with the upset pairs turned round. -/
theorem prefers_iff_flipped (distinct : a.hash ≠ b.hash) :
    Prefers blake2b a.consensusState b.consensusState a.hash b.hash ↔
      Flipped (key blake2b) (Upset blake2b) a b := by
  have keys : key blake2b a ≠ key blake2b b := key_ne blake2b _ _ distinct
  unfold Prefers Flipped Upset
  change (if _ then key blake2b a < key blake2b b else toLex (_, key blake2b a) <
    toLex (_, key blake2b b)) ↔ _
  by_cases near : Near a.consensusState b.consensusState
  · simp [near]
  · simp only [near, if_false, Prod.Lex.toLex_lt_toLex, not_false_eq_true, true_and]
    rcases lt_or_gt_of_ne keys with lt | (gt : key blake2b b < key blake2b a)
    · simp only [lt, lt.not_gt, true_and, false_and, or_false, and_true, and_false]
      omega
    · simp [gt, gt.not_gt, true_and, false_and, false_or, or_false, and_true, and_false]

theorem cmp_eq (distinct : a.hash ≠ b.hash) (va : a.consensusState.Valid) (vb : b.consensusState.Valid) :
    cmp blake2b a b = .ok (if Prefers blake2b a.consensusState b.consensusState a.hash b.hash
      then .lt else .gt) := by
  rw [cmp, if_neg distinct, consensusTake_eq blake2b va vb, ok_bind]
  by_cases h : Prefers blake2b a.consensusState b.consensusState a.hash b.hash
  · simp only [h, decide_true, if_true]
    rfl
  · simp only [h, decide_false, if_false]
    rfl

/-- Candidates that the order is asked to compare: valid, and told apart by their hashes. -/
structure Comparable (S : Set (Candidate V H)) : Prop where
  valid : ∀ c ∈ S, c.consensusState.Valid
  hashes : ∀ a ∈ S, ∀ b ∈ S, a.hash = b.hash → a = b

variable {blake2b} {S : Set (Candidate V H)}

theorem cmp_eq_lt_iff (comparable : Comparable S) (ha : a ∈ S) (hb : b ∈ S) :
    cmp blake2b a b = .ok .lt ↔ Flipped (key blake2b) (Upset blake2b) a b := by
  by_cases same : a.hash = b.hash
  · rw [cmp, if_pos same, comparable.hashes a ha b hb same]
    simp [Flipped]
  · rw [cmp_eq blake2b same (comparable.valid a ha) (comparable.valid b hb), ok.injEq,
      ← prefers_iff_flipped blake2b same]
    split <;> simp [*]

theorem cmp_eq_gt_iff (comparable : Comparable S) (ha : a ∈ S) (hb : b ∈ S) :
    cmp blake2b a b = .ok .gt ↔ cmp blake2b b a = .ok .lt := by
  by_cases same : a.hash = b.hash
  · rw [cmp, if_pos same, cmp, if_pos same.symm]
    simp
  · have swap := prefers_swap blake2b a.consensusState b.consensusState same
    rw [cmp_eq blake2b same (comparable.valid a ha) (comparable.valid b hb),
      cmp_eq blake2b (Ne.symm same) (comparable.valid b hb) (comparable.valid a ha),
      ok.injEq, ok.injEq]
    by_cases h : Prefers blake2b a.consensusState b.consensusState a.hash b.hash <;> simp [h, swap]

theorem cmp_cases (comparable : Comparable S) (ha : a ∈ S) (hb : b ∈ S) (ne : a ≠ b) :
    cmp blake2b a b = .ok .lt ∨ cmp blake2b a b = .ok .gt := by
  have distinct : a.hash ≠ b.hash := fun e => ne (comparable.hashes a ha b hb e)
  rw [cmp_eq blake2b distinct (comparable.valid a ha) (comparable.valid b hb)]
  split <;> simp

/-! ## The ordered set -/

def TransOn (blake2b : V → D) (S : Set (Candidate V H)) : Prop :=
  ∀ a ∈ S, ∀ b ∈ S, ∀ c ∈ S, cmp blake2b a b = .ok .lt → cmp blake2b b c = .ok .lt →
    cmp blake2b a c = .ok .lt

def Ascending (blake2b : V → D) (ordered : List (Candidate V H)) : Prop :=
  ordered.Pairwise fun a b => cmp blake2b a b = .ok .lt

theorem insert_ascending (comparable : Comparable S) (trans : TransOn blake2b S)
    {c : Candidate V H} (hc : c ∈ S) : ∀ {ordered : List (Candidate V H)},
      (∀ d ∈ ordered, d ∈ S) → c ∉ ordered → Ascending blake2b ordered →
      ∃ ordered', insert blake2b c ordered = .ok ordered' ∧ ordered'.Perm (c :: ordered) ∧
        Ascending blake2b ordered'
  | [], _, _, _ => ⟨[c], rfl, .refl _, pairwise_singleton ..⟩
  | d :: ds, mem, fresh, ascending => by
    rw [forall_mem_cons] at mem
    rw [mem_cons, not_or] at fresh
    obtain ⟨least, rest⟩ := pairwise_cons.1 ascending
    have cases : cmp blake2b c d = .ok .lt ∨ cmp blake2b c d = .ok .gt :=
      cmp_cases comparable hc mem.1 fresh.1
    rcases cases with lt | gt
    · refine ⟨c :: d :: ds, by rw [insert, lt]; rfl, .refl _, ?_⟩
      refine pairwise_cons.2 ⟨forall_mem_cons.2 ⟨lt, fun e he => ?_⟩, ascending⟩
      exact trans c hc d mem.1 e (mem.2 e he) lt (least e he)
    · obtain ⟨ds', hds', perm, asc⟩ := insert_ascending comparable trans hc mem.2 fresh.2 rest
      refine ⟨d :: ds', by rw [insert, gt, ok_bind]; dsimp only; rw [hds']; rfl, ?_, ?_⟩
      · exact (perm.cons d).trans (.swap ..)
      · refine pairwise_cons.2 ⟨fun e he => ?_, asc⟩
        rcases mem_cons.1 (perm.subset he) with rfl | he
        · exact (cmp_eq_gt_iff comparable hc mem.1).1 gt
        · exact least e he

/-- Whatever the order of arrival, the set holds the arrived candidates in ascending order. -/
theorem arrive_ascending (comparable : Comparable S) (trans : TransOn blake2b S) :
    ∀ (arrivals : List (Candidate V H)), (∀ c ∈ arrivals, c ∈ S) → arrivals.Nodup →
      ∃ ordered, arrive blake2b arrivals = .ok ordered ∧ ordered.Perm arrivals ∧
        Ascending blake2b ordered := by
  intro arrivals
  induction arrivals using List.reverseRecOn with
  | nil => exact fun _ _ => ⟨[], rfl, .refl _, .nil⟩
  | append_singleton before c ih =>
    intro mem nodup
    have hc : c ∈ S := mem c (by simp)
    rw [nodup_append] at nodup
    obtain ⟨ordered, run, perm, asc⟩ := ih (fun d hd => mem d (by simp [hd])) nodup.1
    have fresh : c ∉ ordered := fun h => nodup.2.2 c (perm.subset h) c (by simp) rfl
    obtain ⟨ordered', step, perm', asc'⟩ := insert_ascending comparable trans hc
      (fun d hd => mem d (by simp [perm.subset hd])) fresh asc
    refine ⟨ordered', ?_, perm'.trans ((perm.cons c).trans (perm_append_singleton c before).symm), asc'⟩
    rw [arrive, foldlM_append]
    change (arrive blake2b before >>= _) = _
    rw [run, ok_bind, foldlM_cons, step]
    rfl

theorem not_lt_of_lt (comparable : Comparable S) (ha : a ∈ S) (hb : b ∈ S) (lt : cmp blake2b a b = .ok .lt) :
    cmp blake2b b a ≠ .ok .lt := by
  rw [Ne, ← cmp_eq_gt_iff comparable ha hb, lt]
  simp

/-- **When the order of the candidates is transitive.**  It is on `S` exactly when, of
    three candidates in the order of length, VRF and hash, the outer pair is upset
    like one of the inner pairs; the ordered set and its best element then do not
    depend on the order of arrival. -/
theorem candidateCmp_trans_iff (blake2b : V → D) (S : Set (Candidate V H)) (comparable : Comparable S) :
    (TransOn blake2b S ↔ ∀ a ∈ S, ∀ b ∈ S, ∀ c ∈ S, key blake2b a < key blake2b b →
      key blake2b b < key blake2b c →
      ((Upset blake2b a c ↔ Upset blake2b a b) ∨ (Upset blake2b a c ↔ Upset blake2b b c))) ∧
    (TransOn blake2b S → ∀ arrivals arrivals' : List (Candidate V H), (∀ c ∈ arrivals, c ∈ S) →
      arrivals.Nodup → arrivals.Perm arrivals' →
      ∃ ordered, arrive blake2b arrivals = .ok ordered ∧ arrive blake2b arrivals' = .ok ordered) := by
  have inj : ∀ a ∈ S, ∀ b ∈ S, key blake2b a = key blake2b b → a = b := by
    intro a ha b hb e
    by_contra ne
    exact key_ne blake2b _ _ (fun h => ne (comparable.hashes a ha b hb h)) e
  constructor
  · rw [← flipped_trans_iff inj (upset_comm blake2b)]
    refine forall₂_congr fun a ha => forall₂_congr fun b hb => forall₂_congr fun c hc => ?_
    rw [cmp_eq_lt_iff comparable ha hb, cmp_eq_lt_iff comparable hb hc, cmp_eq_lt_iff comparable ha hc]
  · intro trans arrivals arrivals' mem nodup perm
    obtain ⟨ordered, run, p, asc⟩ := arrive_ascending comparable trans arrivals mem nodup
    obtain ⟨ordered', run', p', asc'⟩ := arrive_ascending comparable trans arrivals'
      (fun c hc => mem c (perm.symm.subset hc)) (perm.nodup nodup)
    have same : ordered = ordered' := by
      refine List.Perm.eq_of_pairwise (fun a b ha hb lt lt' => ?_) asc asc'
        (p.trans (perm.trans p'.symm))
      have hb := mem b (perm.symm.subset (p'.subset hb))
      exact absurd lt' (not_lt_of_lt comparable (mem a (p.subset ha)) hb lt)
    exact ⟨ordered, run, same ▸ run'⟩

def atSlot8000 (blockchainLength minWindowDensity checkpoint hash : ℕ) : Candidate ℕ ℕ :=
  ⟨⟨blockchainLength, 1, minWindowDensity, List.replicate 11 7, 0, 8000, 7140, checkpoint, 0⟩, hash⟩

/-- Two blocks of one checkpoint, the longer one less dense, and a block of another
    checkpoint between them in density: each is better than the one before, in a
    circle, and the best candidate depends on the order of arrival. -/
theorem candidateCmp_cycle :
    let a := atSlot8000 100 70 1 1
    let b := atSlot8000 101 50 1 2
    let c := atSlot8000 105 60 2 3
    (a.consensusState.Valid ∧ b.consensusState.Valid ∧ c.consensusState.Valid) ∧
    (a.hash ≠ b.hash ∧ b.hash ≠ c.hash ∧ a.hash ≠ c.hash) ∧
    cmp id a b = .ok .lt ∧ cmp id b c = .ok .lt ∧ cmp id a c = .ok .gt ∧
    arrive id [a, b, c] = .ok [c, a, b] ∧ arrive id [b, c, a] = .ok [a, b, c] :=
  ⟨⟨⟨rfl, by decide⟩, ⟨rfl, by decide⟩, ⟨rfl, by decide⟩⟩, by decide, rfl, rfl, rfl, rfl, rfl⟩

/-- Three candidates of one checkpoint are ordered transitively. -/
theorem candidateCmp_trans_one_checkpoint :
    TransOn id {c | c = atSlot8000 100 70 1 1 ∨ c = atSlot8000 101 50 1 2 ∨ c = atSlot8000 105 60 1 3} := by
  refine (candidateCmp_trans_iff id _ ⟨?_, ?_⟩).1.2 ?_
  · rintro _ (rfl | rfl | rfl) <;> exact ⟨rfl, by decide⟩
  · rintro _ (rfl | rfl | rfl) _ (rfl | rfl | rfl) <;> decide
  · rintro _ (rfl | rfl | rfl) _ (rfl | rfl | rfl) _ (rfl | rfl | rfl) _ _ <;>
      exact .inl (iff_of_false (fun h => h.1 (by decide)) fun h => h.1 (by decide))

end Candidate

end MinaRust.Consensus
