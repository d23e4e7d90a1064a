/-
  Fork choice between two consensus states (`consensus.rs`).

  Near forks are compared by chain length, VRF output and state hash; far forks first by the
  density of their windows, each relative to the other block.  The `u32` fields are natural
  numbers, computed with modulo `2 ^ 32`.
-/
import Mathlib
import MinaRust.Lib.Checked

set_option linter.unusedSectionVars false

namespace MinaRust.Consensus

open List

inductive Panic where
  | remainderByZero
  | divisionByZero
  | indexOutOfBounds
  | overflow
  deriving DecidableEq, Repr

def u32 (n : ℕ) : ℕ := n % 2 ^ 32

def GRACE_PERIOD_END : ℕ := 1440
def SUB_WINDOWS_PER_WINDOW : ℕ := 11
def SLOTS_PER_SUB_WINDOW : ℕ := 7

structure ConsensusState (V H : Type) where
  blockchainLength : ℕ
  epochCount : ℕ
  minWindowDensity : ℕ
  subWindowDensities : List ℕ
  lastVrfOutput : V
  /-- `curr_global_slot_since_hard_fork.slot_number` -/
  slotNumber : ℕ
  /-- `curr_global_slot_since_hard_fork.slots_per_epoch` -/
  slotsPerEpoch : ℕ
  /-- `staking_epoch_data.lock_checkpoint` -/
  stakingLockCheckpoint : H
  /-- `next_epoch_data.lock_checkpoint` -/
  nextLockCheckpoint : H
  deriving DecidableEq, Repr

inductive ConsensusShortRangeForkDecisionReason where
  | chainLength
  | vrf
  | stateHash
  deriving DecidableEq, Repr

inductive ConsensusLongRangeForkDecisionReason where
  | subWindowDensity
  | chainLength
  | vrf
  | stateHash
  deriving DecidableEq, Repr

variable {V D H : Type}

/-! ## Near and far forks -/

section
variable [DecidableEq H]

variable (s1 s2 : ConsensusState V H)

/-- `s1` is one epoch ahead of `s2`, which is not in the seed update range. -/
def check : Except Panic Bool := do
  let slotsPerEpoch := s2.slotsPerEpoch
  ensure .remainderByZero (slotsPerEpoch ≠ 0)
  let s2EpochSlot := s2.slotNumber % slotsPerEpoch
  if s1.epochCount = u32 (s2.epochCount + 1) ∧ s2EpochSlot ≥ u32 (slotsPerEpoch * 2) / 3 then
    return decide (s1.stakingLockCheckpoint = s2.nextLockCheckpoint)
  else
    return false

def isShortRangeFork (a b : ConsensusState V H) : Except Panic Bool := do
  if a.epochCount = b.epochCount then
    return decide (a.stakingLockCheckpoint = b.stakingLockCheckpoint)
  else if ← check a b then
    return true
  else
    check b a

/-- `s1` is one epoch ahead of `s2`, and `s2` locked the checkpoint that `s1` stakes on. -/
def OneEpochAhead : Prop :=
  s1.epochCount = u32 (s2.epochCount + 1) ∧
    s2.slotNumber % s2.slotsPerEpoch ≥ u32 (s2.slotsPerEpoch * 2) / 3 ∧
    s1.stakingLockCheckpoint = s2.nextLockCheckpoint

def Near (a b : ConsensusState V H) : Prop :=
  if a.epochCount = b.epochCount then a.stakingLockCheckpoint = b.stakingLockCheckpoint
  else OneEpochAhead a b ∨ OneEpochAhead b a

instance (a b : ConsensusState V H) : Decidable (OneEpochAhead a b) :=
  inferInstanceAs (Decidable (_ ∧ _ ∧ _))

instance (a b : ConsensusState V H) : Decidable (Near a b) :=
  inferInstanceAs (Decidable (ite _ _ _))

theorem Near.symm_iff (a b : ConsensusState V H) : Near a b ↔ Near b a := by
  unfold Near
  by_cases e : a.epochCount = b.epochCount
  · rw [if_pos e, if_pos e.symm, eq_comm]
  · rw [if_neg e, if_neg (Ne.symm e), or_comm]

theorem check_eq {s2 : ConsensusState V H} (h : s2.slotsPerEpoch ≠ 0) :
    check s1 s2 = .ok (decide (OneEpochAhead s1 s2)) := by
  rw [check, ensure_of h]
  dsimp only
  split
  · next ahead => simp only [OneEpochAhead, ahead, true_and]; rfl
  · next behind =>
    refine congrArg Except.ok (decide_eq_false fun o => behind ⟨o.1, o.2.1⟩).symm

theorem isShortRangeFork_eq {a b : ConsensusState V H} (ha : a.slotsPerEpoch ≠ 0)
    (hb : b.slotsPerEpoch ≠ 0) : isShortRangeFork a b = .ok (decide (Near a b)) := by
  unfold isShortRangeFork Near
  split
  · rfl
  · rw [check_eq a hb, check_eq b ha]
    by_cases ahead : OneEpochAhead a b
    · simp only [ahead, decide_true, ok_bind, if_true, true_or]
      rfl
    · simp [ahead]

end

/-! ## Relative window density -/

def clearAt (window : List ℕ) (i : ℕ) : Except Panic (List ℕ) :=
  if i < window.length then .ok (window.set i 0) else .error .indexOutOfBounds

/-- The ring shift: `n` times, go to the next sub-window and clear it. -/
def ringShift : ℕ → ℕ → List ℕ → Except Panic (List ℕ)
  | 0, _, window => .ok window
  | n + 1, i, window => do
    let i := (i + 1) % SUB_WINDOWS_PER_WINDOW
    let window ← clearAt window i
    ringShift n i window

def density (projectedWindow : List ℕ) : ℕ := u32 projectedWindow.sum

def relativeSubWindowFromGlobalSlot (globalSlot : ℕ) : ℕ :=
  globalSlot / SLOTS_PER_SUB_WINDOW % SUB_WINDOWS_PER_WINDOW

variable (b1 b2 : ConsensusState V H)

def relativeMinWindowDensity : Except Panic ℕ := do
  let maxSlot := max b1.slotNumber b2.slotNumber
  if maxSlot < GRACE_PERIOD_END then
    return b1.minWindowDensity
  else
    -- truncated subtraction is `saturating_sub`
    let shiftCount := min (maxSlot - u32 (b1.slotNumber + 1)) SUB_WINDOWS_PER_WINDOW
    let i := relativeSubWindowFromGlobalSlot b1.slotNumber
    let projectedWindow ← ringShift (shiftCount + 1) i b1.subWindowDensities
    return min b1.minWindowDensity (density projectedWindow)

/-- The window with the `n` sub-windows after `i` cleared. -/
def project (i n : ℕ) (window : List ℕ) : List ℕ :=
  window.mapIdx fun j d => if (j + 10 - i) % 11 < n then 0 else d

/-- **The ring shift clears the sub-windows that follow the current one.** -/
theorem ringShift_eq : ∀ (n : ℕ) {i : ℕ} {window : List ℕ}, i < 11 → window.length = 11 →
    ringShift n i window = .ok (project i n window)
  | 0, i, window, _, _ => congrArg Except.ok (ext_getElem (by simp [project]) (by simp [project]))
  | n + 1, i, window, hi, len => by
    have hi' : (i + 1) % 11 < 11 := Nat.mod_lt _ (by decide)
    have cleared : clearAt window ((i + 1) % 11) = .ok (window.set ((i + 1) % 11) 0) :=
      if_pos (len ▸ hi')
    rw [ringShift, SUB_WINDOWS_PER_WINDOW, cleared, ok_bind, ringShift_eq n hi' (by rw [length_set, len])]
    refine congrArg Except.ok (ext_getElem (by simp [project]) fun j hj _ => ?_)
    have hj : j < 11 := by simpa [project, len] using hj
    simp only [project, getElem_mapIdx, getElem_set]
    -- the cleared sub-window is the last one seen from itself
    by_cases e : (i + 1) % 11 = j
    · rw [if_pos e, ite_self, if_pos (by omega)]
    · rw [if_neg e]
      exact if_congr (by omega) rfl rfl

/-- The density of the window of `b` with the `n` sub-windows after its own cleared. -/
def keptDensity (b : ConsensusState V H) (n : ℕ) : ℕ :=
  density (project (b.slotNumber / 7 % 11) n b.subWindowDensities)

def shifts : ℕ :=
  min (max b1.slotNumber b2.slotNumber - u32 (b1.slotNumber + 1)) 11 + 1

def relativeDensity : ℕ :=
  if max b1.slotNumber b2.slotNumber < GRACE_PERIOD_END then b1.minWindowDensity
  else min b1.minWindowDensity (keptDensity b1 (shifts b1 b2))

theorem relativeMinWindowDensity_eq {b1 : ConsensusState V H} (len : b1.subWindowDensities.length = 11) :
    relativeMinWindowDensity b1 b2 = .ok (relativeDensity b1 b2) := by
  unfold relativeMinWindowDensity relativeDensity
  by_cases early : max b1.slotNumber b2.slotNumber < GRACE_PERIOD_END
  · simp only [early, if_true]
    rfl
  · simp only [early, if_false]
    rw [relativeSubWindowFromGlobalSlot, SUB_WINDOWS_PER_WINDOW,
      ringShift_eq _ (Nat.mod_lt _ (by decide)) len]
    rfl

/-! ## The choice -/

/-- One level of the comparison: `reason` decides unless the two sides are equal. -/
def decideBy {R : Type} (reason : R) : Ordering → Bool × R → Bool × R
  | .gt, _ => (true, reason)
  | .lt, _ => (false, reason)
  | .eq, next => next

section
variable [LinearOrder D] [LinearOrder H] (blake2b : V → D)

variable (tipCs candidateCs : ConsensusState V H) (tipHash candidateHash : H)

def shortRangeForkTake : Bool × ConsensusShortRangeForkDecisionReason :=
  decideBy .chainLength (compare candidateCs.blockchainLength tipCs.blockchainLength) <|
  decideBy .vrf (compare (blake2b candidateCs.lastVrfOutput) (blake2b tipCs.lastVrfOutput))
    (decide (candidateHash > tipHash), .stateHash)

def longRangeForkTake : Except Panic (Bool × ConsensusLongRangeForkDecisionReason) := do
  let tipDensity ← relativeMinWindowDensity tipCs candidateCs
  let candidateDensity ← relativeMinWindowDensity candidateCs tipCs
  return decideBy .subWindowDensity (compare candidateDensity tipDensity) <|
    decideBy .chainLength (compare candidateCs.blockchainLength tipCs.blockchainLength) <|
    decideBy .vrf (compare (blake2b candidateCs.lastVrfOutput) (blake2b tipCs.lastVrfOutput))
      (decide (candidateHash > tipHash), .stateHash)

def consensusTake : Except Panic Bool := do
  if ← isShortRangeFork tipCs candidateCs then
    return (shortRangeForkTake blake2b tipCs candidateCs tipHash candidateHash).1
  else
    return (← longRangeForkTake blake2b tipCs candidateCs tipHash candidateHash).1

/-! ## Keys -/

/-- Chain length, VRF output and state hash, most significant first. -/
def key (cs : ConsensusState V H) (hash : H) : ℕ ×ₗ D ×ₗ H :=
  toLex (cs.blockchainLength, toLex (blake2b cs.lastVrfOutput, hash))

theorem decideBy_iff {R α β : Type} [LinearOrder α] [LinearOrder β] {reason : R} {next : Bool × R}
    {c t : α} {x y : β} (h : next.1 = true ↔ x < y) :
    (decideBy reason (compare c t) next).1 = true ↔ toLex (t, x) < toLex (c, y) := by
  rw [Prod.Lex.toLex_lt_toLex]
  rcases lt_trichotomy c t with lt | eq | gt
  · rw [compare_lt_iff_lt.2 lt]
    simp [decideBy, lt.not_gt, lt.ne']
  · simp [decideBy, h, eq]
  · rw [compare_gt_iff_gt.2 gt]
    simp [decideBy, gt]

variable {candidate tip : ConsensusState V H}

theorem shortRangeForkTake_iff {tipHash candidateHash : H} :
    (shortRangeForkTake blake2b tip candidate tipHash candidateHash).1 = true ↔
      key blake2b tip tipHash < key blake2b candidate candidateHash :=
  decideBy_iff (decideBy_iff decide_eq_true_iff)

theorem longRangeForkTake_iff (htip : tip.subWindowDensities.length = 11)
    (hcandidate : candidate.subWindowDensities.length = 11) :
    ∃ r, longRangeForkTake blake2b tip candidate tipHash candidateHash = .ok r ∧
      (r.1 = true ↔ toLex (relativeDensity tip candidate, key blake2b tip tipHash) <
        toLex (relativeDensity candidate tip, key blake2b candidate candidateHash)) := by
  rw [longRangeForkTake, relativeMinWindowDensity_eq _ htip, relativeMinWindowDensity_eq _ hcandidate]
  exact ⟨_, rfl, decideBy_iff (decideBy_iff (decideBy_iff decide_eq_true_iff))⟩

/-! ## Agreement -/

/-- The states that the fork choice handles without stopping. -/
structure ConsensusState.Valid (cs : ConsensusState V H) : Prop where
  densities : cs.subWindowDensities.length = 11
  slotsPerEpoch : cs.slotsPerEpoch ≠ 0

/-- The verdict of the fork choice as a relation: `candidate` is preferred to `tip`. -/
def Prefers (tip candidate : ConsensusState V H) (tipHash candidateHash : H) : Prop :=
  if Near tip candidate then key blake2b tip tipHash < key blake2b candidate candidateHash
  else toLex (relativeDensity tip candidate, key blake2b tip tipHash) <
    toLex (relativeDensity candidate tip, key blake2b candidate candidateHash)

instance (tip candidate : ConsensusState V H) (tipHash candidateHash : H) :
    Decidable (Prefers blake2b tip candidate tipHash candidateHash) :=
  inferInstanceAs (Decidable (ite _ _ _))

theorem consensusTake_eq (htip : tip.Valid) (hcandidate : candidate.Valid) (tipHash candidateHash : H) :
    consensusTake blake2b tip candidate tipHash candidateHash =
      .ok (decide (Prefers blake2b tip candidate tipHash candidateHash)) := by
  rw [consensusTake, isShortRangeFork_eq htip.slotsPerEpoch hcandidate.slotsPerEpoch]
  unfold Prefers
  by_cases near : Near tip candidate
  · simp only [near, decide_true, if_true]
    exact congrArg Except.ok (Bool.eq_iff_iff.2
      ((shortRangeForkTake_iff blake2b).trans decide_eq_true_iff.symm))
  · obtain ⟨r, hr, iff⟩ := longRangeForkTake_iff blake2b tipHash candidateHash htip.densities
      hcandidate.densities
    simp only [near, decide_false, if_false, hr, ok_bind]
    exact congrArg Except.ok (Bool.eq_iff_iff.2 (iff.trans decide_eq_true_iff.symm))

theorem key_ne (a b : ConsensusState V H) {ha hb : H} (distinct : ha ≠ hb) :
    key blake2b a ha ≠ key blake2b b hb :=
  fun e => distinct (congrArg (fun k => (ofLex (ofLex k).2).2) e)

/-- **Of two blocks with different hashes exactly one is preferred to the other.** -/
theorem prefers_swap (a b : ConsensusState V H) {ha hb : H} (distinct : ha ≠ hb) :
    Prefers blake2b b a hb ha ↔ ¬ Prefers blake2b a b ha hb := by
  have keys : key blake2b b hb ≠ key blake2b a ha := key_ne blake2b b a distinct.symm
  unfold Prefers
  by_cases near : Near a b
  · rw [if_pos near, if_pos ((Near.symm_iff a b).1 near), not_lt]
    exact ⟨le_of_lt, fun le => lt_of_le_of_ne le keys⟩
  · rw [if_neg near, if_neg fun h => near ((Near.symm_iff a b).2 h), not_lt]
    exact ⟨le_of_lt, fun le => lt_of_le_of_ne le fun e => keys (congrArg (fun k => (ofLex k).2) e)⟩

/-- The block on which a node with the tip `tip` ends when it receives `candidate`. -/
def adopt (tip candidate : ConsensusState V H × H) : Except Panic (ConsensusState V H × H) := do
  if ← consensusTake blake2b tip.1 candidate.1 tip.2 candidate.2 then return candidate else return tip

/-- **Pairwise agreement.**  For two valid states with different hashes the range of
    the fork does not depend on the side it is seen from, exactly one of the two
    nodes takes the other's block, and both end on the same one. -/
theorem consensusTake_agreement (a b : ConsensusState V H) (ha hb : H)
    (distinct : ha ≠ hb) (va : a.Valid) (vb : b.Valid) :
    (∃ near, isShortRangeFork a b = .ok near ∧ isShortRangeFork b a = .ok near) ∧
    (∃ take, consensusTake blake2b a b ha hb = .ok take ∧ consensusTake blake2b b a hb ha = .ok (!take)) ∧
    ∃ best, adopt blake2b (a, ha) (b, hb) = .ok best ∧ adopt blake2b (b, hb) (a, ha) = .ok best := by
  have near := isShortRangeFork_eq va.slotsPerEpoch vb.slotsPerEpoch
  have near' := isShortRangeFork_eq vb.slotsPerEpoch va.slotsPerEpoch
  have takes := consensusTake_eq blake2b va vb ha hb
  have takes' := consensusTake_eq blake2b vb va hb ha
  have swap : decide (Prefers blake2b b a hb ha) = !decide (Prefers blake2b a b ha hb) := by
    rw [← decide_not]
    exact decide_eq_decide.2 (prefers_swap blake2b a b distinct)
  rw [decide_eq_decide.2 (Near.symm_iff b a)] at near'
  rw [swap] at takes'
  refine ⟨⟨_, near, near'⟩, ⟨_, takes, takes'⟩, ?_⟩
  unfold adopt
  rw [takes, takes', ok_bind]
  cases decide (Prefers blake2b a b ha hb) with
  | true => exact ⟨(b, hb), rfl, rfl⟩
  | false => exact ⟨(a, ha), rfl, rfl⟩

/-- Agreement at two states that tie in density, length and VRF output. -/
theorem consensusTake_agreement_tie : ∃ best,
      adopt (id : ℕ → ℕ) (⟨100, 1, 40, List.replicate 11 4, 5, 8000, 7140, 1, 2⟩, 1)
        (⟨100, 1, 40, List.replicate 11 4, 5, 8000, 7140, 3, 2⟩, 2) = .ok best ∧
      adopt (id : ℕ → ℕ) (⟨100, 1, 40, List.replicate 11 4, 5, 8000, 7140, 3, 2⟩, 2)
        (⟨100, 1, 40, List.replicate 11 4, 5, 8000, 7140, 1, 2⟩, 1) = .ok best :=
  (consensusTake_agreement id _ _ 1 2 (by decide) ⟨rfl, by decide⟩ ⟨rfl, by decide⟩).2.2

end

end MinaRust.Consensus
