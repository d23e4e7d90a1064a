/-
  The window density update of block production (`block_producer_reducer.rs`), compared with
  the projection that the fork choice uses.

  Block production clears the sub-windows strictly between that of the predecessor and that
  of the new slot.  The fork choice clears one sub-window for every slot in between, and
  always at least one.
-/
import MinaRust.Consensus.ForkChoice

namespace MinaRust.Consensus

variable {V H : Type}

/-! ## Block production -/

structure WindowConstants where
  slotsPerSubWindow : ℕ
  gracePeriodEnd : ℕ
  deriving DecidableEq, Repr

variable (c : WindowConstants) (b : ConsensusState V H) (slot : ℕ)

def globalSubWindow : Except Panic ℕ := do
  ensure .divisionByZero (c.slotsPerSubWindow ≠ 0)
  return slot / c.slotsPerSubWindow

def relativeSubWindow (globalSubWindow : ℕ) : ℕ := globalSubWindow % SUB_WINDOWS_PER_WINDOW

/-- From the global sub-windows of the predecessor and of the new slot. -/
def currentSubWindowDensities (pred next : ℕ) (densities : List ℕ) : List ℕ :=
  densities.mapIdx fun i density =>
    let gtPredSubWindow := i > relativeSubWindow pred
    let ltNextSubWindow := i < relativeSubWindow next
    let withinRange :=
      if relativeSubWindow pred < relativeSubWindow next then gtPredSubWindow ∧ ltNextSubWindow
      else gtPredSubWindow ∨ ltNextSubWindow
    if pred = next ∨ (pred + SUB_WINDOWS_PER_WINDOW ≥ next ∧ ¬ withinRange) then density else 0

/-- `min_window_density` and `sub_window_densities` of a block at `slot` on top of `pred`. -/
def nextWindow (incrWindow : Bool) (pred : ConsensusState V H) (slot : ℕ) : Except Panic (ℕ × List ℕ) := do
  let predGlobalSubWindow ← globalSubWindow c pred.slotNumber
  let nextGlobalSubWindow ← globalSubWindow c slot
  -- `checked_add(sub_windows_per_window).expect("overflow")`
  ensure .overflow (predGlobalSubWindow + SUB_WINDOWS_PER_WINDOW < 2 ^ 32)
  let isSameGlobalSubWindow := predGlobalSubWindow = nextGlobalSubWindow
  let current :=
    currentSubWindowDensities predGlobalSubWindow nextGlobalSubWindow pred.subWindowDensities
  let minWindowDensity :=
    if isSameGlobalSubWindow ∨ slot < c.gracePeriodEnd then pred.minWindowDensity
    else min pred.minWindowDensity (density current)
  let next := current.mapIdx fun i density =>
    if i = relativeSubWindow nextGlobalSubWindow then
      let density := if isSameGlobalSubWindow then density else 0
      if incrWindow then min (density + 1) (2 ^ 32 - 1) else density
    else density
  return (minWindowDensity, next)

/-- **Block production clears the sub-windows strictly between the two.** -/
theorem currentSubWindowDensities_eq {pred next : ℕ} (lt : pred < next) {w : List ℕ} (len : w.length = 11) :
    currentSubWindowDensities pred next w = project (pred % 11) (next - pred - 1) w := by
  refine List.ext_getElem (by simp [currentSubWindowDensities, project]) fun j hj _ => ?_
  have hj : j < 11 := by simpa [currentSubWindowDensities, len] using hj
  simp only [currentSubWindowDensities, project, List.getElem_mapIdx, relativeSubWindow,
    SUB_WINDOWS_PER_WINDOW, lt.ne, false_or]
  by_cases wrap : pred % 11 < next % 11
  · simp only [wrap, if_true]
    split <;> split <;> first | rfl | omega
  · simp only [wrap, if_false]
    split <;> split <;> first | rfl | omega

/-! ## The two projections -/

/-- The slot is in the sub-window of `b`, or before the end of the grace period. -/
def KeepsMin : Prop :=
  b.slotNumber / 7 = slot / 7 ∨ slot < c.gracePeriodEnd

instance (c : WindowConstants) (b : ConsensusState V H) (slot : ℕ) : Decidable (KeepsMin c b slot) :=
  inferInstanceAs (Decidable (_ ∨ _))

/-- The sub-windows that block production clears on the way to `slot`. -/
def between : ℕ := slot / 7 - b.slotNumber / 7 - 1

/-- The minimum density that block production computes at a slot not before `b`'s. -/
theorem nextWindow_eq {c : WindowConstants} (seven : c.slotsPerSubWindow = 7) (incrWindow : Bool)
    {b : ConsensusState V H} (len : b.subWindowDensities.length = 11)
    (bound : b.slotNumber < 2 ^ 32) {slot : ℕ} (le : b.slotNumber ≤ slot) :
    Prod.fst <$> nextWindow c incrWindow b slot = .ok (if KeepsMin c b slot then b.minWindowDensity
      else min b.minWindowDensity (keptDensity b (between b slot))) := by
  have global : ∀ s, globalSubWindow c s = .ok (s / 7) := by
    intro s
    rw [globalSubWindow, seven]
    rfl
  have room : b.slotNumber / 7 + SUB_WINDOWS_PER_WINDOW < 2 ^ 32 := by
    unfold SUB_WINDOWS_PER_WINDOW
    omega
  rw [nextWindow, global, ok_bind, global, ok_bind, ensure_of room, ok_bind]
  refine congrArg Except.ok ?_
  by_cases keeps : KeepsMin c b slot
  · rw [if_pos keeps]
    exact if_pos keeps
  · have lt : b.slotNumber / 7 < slot / 7 := by
      unfold KeepsMin at keeps
      omega
    rw [if_neg keeps, keptDensity, between, ← currentSubWindowDensities_eq lt len]
    exact if_neg keeps

/-- When the two projections of `b1` to the later slot have the same density. -/
def DensitiesAgree (b1 b2 : ConsensusState V H) : Prop :=
  let slot := max b1.slotNumber b2.slotNumber
  let m := b1.minWindowDensity
  let choice := keptDensity b1 (shifts b1 b2)
  let production := keptDensity b1 (between b1 slot)
  if slot < GRACE_PERIOD_END then KeepsMin c b1 slot ∨ m ≤ production
  else if KeepsMin c b1 slot then m ≤ choice
  else choice = production ∨ (m ≤ choice ∧ m ≤ production)

instance (c : WindowConstants) (b1 b2 : ConsensusState V H) : Decidable (DensitiesAgree c b1 b2) :=
  inferInstanceAs (Decidable (ite _ _ _))

end MinaRust.Consensus
