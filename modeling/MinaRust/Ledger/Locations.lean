/-
  The index of a mask: `location_of_account` reads an index that every layer keeps beside its
  accounts.

  A mask is kept when each index lists exactly the accounts of its layer, under their ids, and
  no layer puts an account over one with another id.
-/
import MinaRust.Ledger.Write

namespace MinaRust.Ledger

open Function AList Nat Layer

variable {A I F : Type}

/-! ## Counting accounts -/

variable (addr : Address) (last : Option Address)

def filled : ℕ := last.elim 0 fun addr => addr.toIndex + 1

theorem reaches_iff {last : Option Address} {i : ℕ} : Reaches last i ↔ i < filled last := by
  cases last with
  | none => exact ⟨fun ⟨_, h, _⟩ => (by cases h), fun h => absurd h (not_lt_zero i)⟩
  | some l =>
    refine ⟨fun ⟨_, h, le⟩ => ?_, fun h => ⟨l, rfl, Nat.lt_succ_iff.1 h⟩⟩
    cases h
    exact Nat.lt_succ_iff.2 le

theorem filled_extendLast : filled (extendLast addr last) = max (filled last) (addr.toIndex + 1) := by
  rw [extendLast]
  cases last with
  | none => exact (max_eq_right (zero_le _)).symm
  | some l =>
    simp only [Option.elim_some, decide_eq_true_eq]
    split
    · next lt => exact (max_eq_right (succ_le_succ lt.le)).symm
    · next ge => exact (max_eq_left (succ_le_succ (not_lt.1 ge))).symm

namespace MaskImpl

theorem numAccounts_attached (own : Layer A I F) (parent : MaskImpl A I F) :
    (attached own parent).numAccounts = max (filled own.lastLocation) parent.numAccounts := by
  rw [numAccounts, numAccounts, lastFilled]
  cases parent.lastFilled with
  | none => exact (max_eq_left (zero_le _)).symm
  | some lp =>
    cases own.lastLocation with
    | none => exact (max_eq_right (zero_le _)).symm
    | some l =>
      simp only
      split
      · next lt => exact (max_eq_left (succ_le_succ lt.le)).symm
      · next ge => exact (max_eq_right (succ_le_succ (not_lt.1 ge))).symm

end MaskImpl

theorem beq_of_index {d : ℕ} {x y : Option Address} (hx : ∀ a, x = some a → a.length = d)
    (hy : ∀ a, y = some a → a.length = d) (h : x.map Address.toIndex = y.map Address.toIndex) :
    (x == y) = true := by
  cases x with
  | none =>
    cases y with
    | none => rfl
    | some b => cases h
  | some a =>
    cases y with
    | none => cases h
    | some b =>
      exact Address.beq_eq_true.2 ⟨(hx a rfl).trans (hy b rfl).symm, Option.some.inj h⟩

theorem filled_eq_iff {x y : Option Address} :
    filled x = filled y ↔ x.map Address.toIndex = y.map Address.toIndex := by
  cases x <;> cases y <;> simp [filled]

/-! ## Indexes -/

variable (V : TreeVersion A I F)

/-- The index lists exactly the accounts of the view, under their ids. -/
def Indexes (location : I → Option Address) (view : ℕ → Option A) : Prop :=
  ∀ id i, (location id).map Address.toIndex = some i ↔ ∃ a, view i = some a ∧ V.id a = id

/-- Accounts of the two views have the same id at the same leaf only. -/
def Compatible (view below : ℕ → Option A) : Prop :=
  ∀ {i j : ℕ} {a b : A}, view i = some a → below j = some b → (V.id b = V.id a ↔ j = i)

def Fits (view : ℕ → Option A) (i : ℕ) (account : A) : Prop :=
  ∀ {j : ℕ} {b : A}, view j = some b → (V.id b = V.id account ↔ j = i)

section
variable {V : TreeVersion A I F} {location location' : I → Option Address}
  {view view' : ℕ → Option A}

theorem Indexes.compatible (h : Indexes V location view) : Compatible V view view := by
  intro i j a b ha hb
  constructor
  · intro same
    have hi := (h (V.id a) i).2 ⟨a, ha, rfl⟩
    have hj := (h (V.id a) j).2 ⟨b, hb, same⟩
    rw [hi] at hj
    exact (Option.some.inj hj).symm
  · rintro rfl
    rw [ha] at hb
    cases hb
    rfl

theorem Indexes.ext (h : Indexes V location view) (h' : Indexes V location' view) (id : I) :
    (location id).map Address.toIndex = (location' id).map Address.toIndex :=
  Option.ext fun i => (h id i).trans (h' id i).symm

theorem Indexes.overlay (h : Indexes V location view) (h' : Indexes V location' view')
    (compatible : Compatible V view view') :
    Indexes V (fun id => location id <|> location' id) fun i => view i <|> view' i := by
  intro id i
  show (location id <|> location' id).map Address.toIndex = some i ↔
    ∃ a, (view i <|> view' i) = some a ∧ V.id a = id
  cases loc : location id with
  | some a =>
    obtain ⟨b, here, rfl⟩ := (h id a.toIndex).1 (by rw [loc]; rfl)
    constructor
    · rintro ⟨⟩
      exact ⟨b, by rw [here]; rfl, rfl⟩
    · rintro ⟨c, hc, same⟩
      cases mine : view i with
      | some c' =>
        rw [mine] at hc
        cases hc
        have := (h _ i).2 ⟨c, mine, same⟩
        rw [loc] at this
        exact this
      | none =>
        rw [mine] at hc
        rw [(compatible here hc).1 same]
        rfl
  | none =>
    have absent {j : ℕ} {b : A} (hb : view j = some b) : V.id b ≠ id := fun same => by
      have := (h id j).2 ⟨b, hb, same⟩
      rw [loc] at this
      cases this
    refine (h' id i).trans ⟨?_, ?_⟩
    · rintro ⟨b, hb, rfl⟩
      cases mine : view i with
      | some c => exact absurd ((compatible mine hb).2 rfl).symm (absent mine)
      | none => exact ⟨b, hb, rfl⟩
    · rintro ⟨b, hb, rfl⟩
      cases mine : view i with
      | some c =>
        rw [mine] at hb
        cases hb
        exact absurd rfl (absent mine)
      | none =>
        rw [mine] at hb
        exact ⟨b, hb, rfl⟩

variable [DecidableEq I]

theorem Indexes.set (h : Indexes V location view) {addr : Address} {account : A}
    (fits : Fits V view addr.toIndex account) :
    Indexes V (Function.update location (V.id account) (some addr))
      (Function.update view addr.toIndex (some account)) := by
  intro id i
  by_cases same : id = V.id account
  · rw [same, update_self]
    constructor
    · rintro ⟨⟩
      exact ⟨account, update_self .., rfl⟩
    · rintro ⟨b, hb, eq⟩
      by_cases hi : i = addr.toIndex
      · rw [hi]
        rfl
      · rw [update_of_ne hi] at hb
        exact absurd ((fits hb).1 eq) hi
  · rw [update_of_ne same]
    refine (h id i).trans ?_
    by_cases hi : i = addr.toIndex
    · constructor
      · rintro ⟨b, hb, rfl⟩
        exact absurd ((fits hb).2 hi) same
      · rintro ⟨b, hb, rfl⟩
        rw [hi, update_self] at hb
        cases hb
        exact absurd rfl same
    · rw [update_of_ne hi]

end

/-! ## Kept masks -/

theorem lookup_insert_eq_update {K W : Type} [DecidableEq K] (M : HashMap K W) (k : K) (w : W) :
    (fun x => (M.insert k w).lookup x) = Function.update (fun x => M.lookup x) k (some w) := by
  funext x
  rw [update_apply]
  split
  · next same => rw [same, lookup_insert]
  · next ne => rw [lookup_insert_ne ne]

theorem Layer.overlay_set [DecidableEq I] {V : TreeVersion A I F} (account : A) (own : Layer A I F)
    (below : ℕ → Option A) :
    (own.set V addr account).overlay below =
      Function.update (own.overlay below) addr.toIndex (some account) := by
  funext i
  rw [update_apply, overlay, overlay, Layer.set]
  split
  · next same =>
    rw [same, lookup_insert]
    rfl
  · next ne => rw [lookup_insert_ne ne]

namespace MaskImpl

variable [DecidableEq I] {V : TreeVersion A I F} {d : ℕ}
  {m : MaskImpl A I F} {addr : Address} {account : A}

/-- The index of a layer lists exactly its accounts, ids agree at the same leaf only, and the
    last location is that of an account unless it is filled below. -/
def Kept (V : TreeVersion A I F) : MaskImpl A I F → Prop
  | root database => Indexes V database.locationOfAccount database.getAtIndex
  | attached own parent =>
    Indexes V (fun id => own.idToAddr.lookup id) (fun i => own.owningAccount.lookup i) ∧
      Compatible V (fun i => own.owningAccount.lookup i) parent.view ∧
      (∀ l, own.lastLocation = some l →
        Reaches parent.lastFilled l.toIndex ∨ (own.owningAccount.lookup l.toIndex).isSome) ∧
      parent.Kept V
  | unattached _ => False

theorem Kept.indexes : ∀ {m : MaskImpl A I F}, m.Kept V →
    Indexes V (fun id => m.locationOfAccount id) m.view
  | root _, h => h
  | attached _ _, ⟨index, compatible, _, p⟩ => index.overlay p.indexes compatible

theorem view_set (addr : Address) (account : A) : ∀ m : MaskImpl A I F,
    (m.set V addr account).view = Function.update m.view addr.toIndex (some account)
  | root database => by
    funext i
    rw [update_apply]
    exact Database.getAtIndex_set addr account i
  | attached own parent => own.overlay_set addr account parent.view
  | unattached own => own.overlay_set addr account fun _ => none

theorem numAccounts_set (addr : Address) (account : A) : ∀ m : MaskImpl A I F,
    (m.set V addr account).numAccounts = max m.numAccounts (addr.toIndex + 1)
  | root database => filled_extendLast addr database.lastLocation
  | attached own parent => by
    rw [MaskImpl.set, numAccounts_attached, numAccounts_attached, Layer.set, filled_extendLast,
      max_right_comm]
  | unattached own => filled_extendLast addr own.lastLocation

omit [DecidableEq I] in
theorem Fits.split {own : Layer A I F} {parent : MaskImpl A I F}
    {i : ℕ} (fits : Fits V (attached own parent).view i account)
    (compatible : Compatible V (fun i => own.owningAccount.lookup i) parent.view) :
    Fits V (fun i => own.owningAccount.lookup i) i account ∧ Fits V parent.view i account := by
  have mine : Fits V (fun i => own.owningAccount.lookup i) i account := fun {j b} hb =>
    fits (by rw [view, overlay, show own.owningAccount.lookup j = _ from hb]; rfl)
  refine ⟨mine, fun {j b} hb => ?_⟩
  cases here : own.owningAccount.lookup j with
  | some c =>
    rw [(compatible here hb).2 rfl]
    exact mine here
  | none => exact fits (by rw [view, overlay, here]; exact hb)

theorem Kept.keeps : ∀ {m : MaskImpl A I F}, m.Kept V →
    Fits V m.view addr.toIndex account → m.Keeps V addr account
  | root _, _, _ => trivial
  | attached own parent, ⟨index, compatible, _, _⟩, fits => by
    intro a ha ne _
    obtain ⟨b, hb, same⟩ := (index (V.id account) a.toIndex).1 (congrArg (·.map Address.toIndex) ha)
    exact absurd ((Fits.split fits compatible).1 hb |>.1 same) ne

theorem Kept.set : ∀ {m : MaskImpl A I F}, m.Kept V →
    Fits V m.view addr.toIndex account → (m.set V addr account).Kept V
  | root database, index, fits => by
    have set := Indexes.set index fits
    have location : (database.set V addr account).locationOfAccount =
        Function.update database.locationOfAccount (V.id account) (some addr) := by
      funext id
      by_cases same : id = V.id account
      · rw [same, update_self]
        exact lookup_insert _
      · rw [update_of_ne same]
        refine (lookup_insert_ne same).trans ?_
        cases old : database.get addr with
        | none => rfl
        | some b =>
          refine lookup_erase_ne fun h => same (h.trans ?_)
          exact (fits old).2 rfl
    have view : (database.set V addr account).getAtIndex =
        Function.update database.getAtIndex addr.toIndex (some account) :=
      view_set (V := V) addr account (root database)
    show Indexes V _ _
    rw [location, view]
    exact set
  | attached own parent, ⟨index, compatible, tight, p⟩, fits => by
    obtain ⟨mine, below⟩ := Fits.split fits compatible
    refine ⟨?_, fun {i j a b} ha hb => ?_, fun l hl => ?_, p⟩
    · have set := Indexes.set index mine
      rw [← lookup_insert_eq_update, ← lookup_insert_eq_update] at set
      exact set
    · have ha : (own.owningAccount.insert addr.toIndex account).lookup i = some a := ha
      by_cases hi : i = addr.toIndex
      · rw [hi, lookup_insert] at ha
        cases ha
        rw [hi]
        exact below hb
      · rw [lookup_insert_ne hi] at ha
        exact compatible ha hb
    · rw [Layer.set]
      by_cases hi : l.toIndex = addr.toIndex
      · rw [hi, lookup_insert]
        exact Or.inr rfl
      · rw [lookup_insert_ne hi]
        rw [Layer.set, extendLast] at hl
        split at hl
        · cases hl
          exact absurd rfl hi
        · exact tight l hl

end MaskImpl

end MinaRust.Ledger
