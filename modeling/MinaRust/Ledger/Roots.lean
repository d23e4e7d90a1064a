/-
  Merkle roots and paths in every run of the masks.

  `Permitted` are the operations of a run; `Safe` excludes the two uses that go wrong: a
  `set` that moves an id of the mask to another leaf, and the query of an inner hash at an
  address with bits set after its length.
-/
import MinaRust.Ledger.Masks

set_option linter.unusedSectionVars false

namespace MinaRust.Ledger

open MaskImpl

inductive Op (A I : Type) where
  | makeChild (path : List ℕ)
  | set (path : List ℕ) (addr : Address) (account : A)
  | getOrCreateAccount (path : List ℕ) (accountId : I) (account : A)
  | removeAccounts (path : List ℕ) (ids : List I)
  | merkleRoot (path : List ℕ)
  | merklePath (path : List ℕ) (addr : Address)
  | getInnerHashAtAddr (path : List ℕ) (addr : Address)

variable {A I F : Type} [DecidableEq I] [DecidableEq A]

namespace Masks

variable (V : TreeVersion A I F)

def step : Op A I → Masks A I F → Except Panic (Masks A I F)
  | .makeChild path, t => t.makeChild path
  | .set path addr account, t => t.set V path addr account
  | .getOrCreateAccount path accountId account, t => do
    let (_, t) ← t.getOrCreateAccount path accountId account
    .ok t
  | .removeAccounts path ids, t => t.removeAccounts V path ids
  | .merkleRoot path, t => do
    let (_, t) ← t.run (MaskImpl.merkleRoot V) path
    .ok t
  | .merklePath path addr, t => do
    let (_, t) ← t.run (MaskImpl.merklePath V addr) path
    .ok t
  | .getInnerHashAtAddr path addr, t => do
    let (_, t) ← t.run (MaskImpl.getInnerHashAtAddr V addr) path
    .ok t

variable (t : Masks A I F)

def At (path : List ℕ) (P : MaskImpl A I F → Prop) : Prop :=
  ∃ m, t.mask path = some m ∧ P m

/-- Writes go to masks without children; a mask removes accounts of its own only. -/
def Permitted : Op A I → Prop
  | .makeChild path | .merkleRoot path | .getInnerHashAtAddr path _ => t.At path fun _ => True
  | .merklePath path addr => t.At path fun m => addr.length ≤ m.depth
  | .set path addr _ => t.At path (fun m => addr.length = m.depth) ∧ t.childsAt path = []
  | .getOrCreateAccount path _ _ => t.At path (fun _ => True) ∧ t.childsAt path = []
  | .removeAccounts path ids => t.At path (fun m => m.ListsAll ids) ∧ t.childsAt path = []

/-- No `set` leaves an account unlisted, and no inner hash is asked for with unused bits set. -/
def Safe : Op A I → Prop
  | .set path addr account => ∀ m, t.mask path = some m → m.Keeps V addr account
  | .getInnerHashAtAddr _ addr => addr.Clean
  | _ => True

/-- The operations of a run that are permitted and safe. -/
abbrev Allowed (t : Masks A I F) (op : Op A I) : Prop :=
  t.Permitted op ∧ t.Safe V op

/-- The masks reached from an empty database of depth `d`, by operations for
    which `P` holds. -/
inductive Reachable (P : Masks A I F → Op A I → Prop) (d : ℕ) : Masks A I F → Prop
  | create : Reachable P d (create d)
  | step {t t' : Masks A I F} (op : Op A I) :
      Reachable P d t → P t op → t.step V op = .ok t' → Reachable P d t'

end Masks

/-! ## No write stores a hash -/

theorem takeAddrs_error : ∀ {ids : List I} {idToAddr : HashMap I Address} {e : Panic},
    takeAddrs ids idToAddr = .error e → e ≠ .hashAlreadySet
  | [], idToAddr, e, h => by cases h
  | id :: ids, idToAddr, e, h => by
    rw [takeAddrs] at h
    split at h
    · cases h
      decide
    · rcases bind_eq_error.1 h with h | ⟨_, _, h⟩
      · exact takeAddrs_error h
      · cases h

variable {e : Panic}

theorem Layer.removeOwnAccount_error {own : Layer A I F} {ids : List I}
    (h : own.removeOwnAccount ids = .error e) : e ≠ .hashAlreadySet := by
  rcases bind_eq_error.1 h with h | ⟨⟨addrs, idToAddr⟩, _, h⟩
  · exact takeAddrs_error h
  · rcases bind_eq_error.1 h with h | ⟨_, _, h⟩
    · refine foldlM_error (Q := (· ≠ .hashAlreadySet)) (fun addr _ own e h => ?_) h
      rw [Layer.removeAt] at h
      split at h
      · cases h
        decide
      · cases h
    · cases h

theorem Database.removeAccounts_error {V : TreeVersion A I F} {db : Database A I F} {ids : List I}
    (h : db.removeAccounts V ids = .error e) : e ≠ .hashAlreadySet := by
  rcases bind_eq_error.1 h with h | ⟨⟨addrs, idToAddr⟩, _, h⟩
  · exact takeAddrs_error h
  · refine foldlM_error (Q := (· ≠ .hashAlreadySet)) (fun addr _ db e h => ?_) h
    rw [Database.removeAt] at h
    split at h
    · cases h
    · rcases bind_eq_error.1 h with h | ⟨_, _, h⟩
      · rw [checkedSub] at h
        split at h <;> cases h
        decide
      · cases h

theorem Database.getOrCreateAccount_error {db : Database A I F} {accountId : I} {account : A}
    (h : db.getOrCreateAccount accountId account = .error e) : e ≠ .hashAlreadySet := by
  rcases bind_eq_error.1 h with h | ⟨⟨r, _⟩, _, h⟩
  · rw [createAccount] at h
    split at h
    · cases h
    · split at h
      · cases h
      · rcases bind_eq_error.1 h with h | ⟨_, _, h⟩
        · rw [ensure] at h
          split at h <;> cases h
          decide
        · cases h
  · rcases r with e | ⟨_⟩ | ⟨_⟩ <;> cases h

theorem getOrCreateAccount_error {accountId : I} {account : A} {m : MaskImpl A I F}
    (h : m.getOrCreateAccount accountId account = .error e) : e ≠ .hashAlreadySet := by
  cases m with
  | root database =>
    rw [getOrCreateAccount] at h
    split at h
    · cases h
    · rcases bind_eq_error.1 h with h | ⟨_, _, h⟩
      · exact Database.getOrCreateAccount_error h
      · cases h
  | attached own parent | unattached own =>
    rw [getOrCreateAccount] at h
    split at h
    · cases h
    · split at h <;> cases h

theorem removeAccountsWithoutNotif_error {V : TreeVersion A I F} :
    ∀ {ids : List I} {e : Panic} {m : MaskImpl A I F},
      m.removeAccountsWithoutNotif V ids = .error e → e ≠ .hashAlreadySet
  | ids, e, root database, h => by
    rcases bind_eq_error.1 h with h | ⟨_, _, h⟩
    · exact Database.removeAccounts_error h
    · cases h
  | ids, e, unattached own, h => by
    rcases bind_eq_error.1 h with h | ⟨_, _, h⟩
    · exact Layer.removeOwnAccount_error h
    · cases h
  | ids, e, attached own parent, h => by
    rcases bind_eq_error.1 h with h | ⟨_, _, h⟩
    · split at h
      · cases h
      · exact removeAccountsWithoutNotif_error h
    · rcases bind_eq_error.1 h with h | ⟨_, _, h⟩
      · exact Layer.removeOwnAccount_error h
      · cases h

/-! ## Runs -/

namespace Masks

variable {V : TreeVersion A I F} {d : ℕ} {t t' : Masks A I F}
  {op : Op A I}

/-- Sound masks, or a stop for another reason than a hash stored twice. -/
def Outcome (V : TreeVersion A I F) (d : ℕ) (x : Except Panic (Masks A I F)) : Prop :=
  (∃ t', x = .ok t' ∧ t'.Sound V d) ∨ ∃ e, x = .error e ∧ e ≠ .hashAlreadySet

theorem Sound.query {α : Type} {a : α} {f : MaskImpl A I F → Except Panic (α × MaskImpl A I F)}
    (s : t.Sound V d) {path : List ℕ} {m m' : MaskImpl A I F} {last : Address} (hm : t.mask path = some m)
    (run : f m = .ok (a, m')) (like : MaskImpl.Like V d last m m') :
    Outcome V d (do
      let (_, t) ← t.run f path
      .ok t) := by
  obtain ⟨t', eq, s'⟩ := s.run hm run (like.1.sound_of_strip like.2 (s.mask hm))
    (sameParent_of_strip like.2) (Or.inl like.2)
  exact Or.inl ⟨t', by rw [eq]; rfl, s'⟩

theorem Sound.step (hd : d ≤ rangeHeight) (pos : 0 < d) (s : t.Sound V d)
    (permitted : t.Permitted op) (safe : t.Safe V op) : Outcome V d (t.step V op) := by
  have hb : d ≤ nbits := hd.trans (by decide)
  cases op with
  | makeChild path =>
    obtain ⟨m, hm, -⟩ := permitted
    have : ∃ t', t.makeChild path = .ok t' := by
      rw [Masks.makeChild, hm]
      exact ⟨_, rfl⟩
    obtain ⟨t', eq⟩ := this
    exact Or.inl ⟨t', eq, s.makeChild eq⟩
  | merkleRoot path =>
    obtain ⟨m, hm, -⟩ := permitted
    obtain ⟨m', run, like⟩ := merkleRoot_spec hd pos (s.mask hm).answers
    exact s.query hm run like
  | merklePath path addr =>
    obtain ⟨m, hm, len⟩ := permitted
    have ok : m.Answers V d m.lastAccount := (s.mask hm).answers
    rw [ok.depth] at len
    obtain ⟨m', run, like⟩ := merklePath_spec hd pos len (s.mask hm)
    exact s.query hm run like
  | getInnerHashAtAddr path addr =>
    obtain ⟨m, hm, -⟩ := permitted
    obtain ⟨r, m', run, like, -⟩ :=
      getInnerHashAtAddr_spec hd pos safe (s.mask hm).answers
    exact s.query hm run like
  | set path addr account =>
    obtain ⟨⟨m, hm, len⟩, childless⟩ := permitted
    have ok : m.Answers V d m.lastAccount := (s.mask hm).answers
    rw [ok.depth] at len
    obtain ⟨sound, parent⟩ := (s.mask hm).set hb len (safe m hm)
    obtain ⟨t', eq, s'⟩ := s.run (f := fun m => .ok ((), m.set V addr account)) hm rfl sound
      (by rw [MaskImpl.SameParent, parent]) (Or.inr childless)
    refine Or.inl ⟨t', ?_, s'⟩
    show Masks.set V path addr account t = _
    rw [Masks.set, updateChilds_nil (g := notifyAll V addr.toIndex account) rfl hm childless, ok_bind, eq]
    rfl
  | getOrCreateAccount path accountId account =>
    obtain ⟨⟨m, hm, -⟩, childless⟩ := permitted
    cases run : m.getOrCreateAccount accountId account with
    | error e =>
      refine Or.inr ⟨e, ?_, getOrCreateAccount_error run⟩
      show (t.run _ path >>= _) = _
      rw [run_error hm run]
      rfl
    | ok r =>
      obtain ⟨sound, parent⟩ := (s.mask hm).getOrCreateAccount hb run
      obtain ⟨t', eq, s'⟩ := s.run hm run sound (by rw [MaskImpl.SameParent, parent]) (Or.inr childless)
      refine Or.inl ⟨t', ?_, s'⟩
      show (t.run _ path >>= _) = _
      rw [eq]
      rfl
  | removeAccounts path ids =>
    obtain ⟨⟨m, hm, lists⟩, childless⟩ := permitted
    show Outcome V d (t.run _ path >>= _)
    cases run : m.removeAccounts V ids with
    | error e =>
      refine Or.inr ⟨e, ?_, ?_⟩
      · rw [run_error hm run]
        rfl
      · rcases bind_eq_error.1 run with h | ⟨_, _, h⟩
        · exact removeAccountsWithoutNotif_error h
        · cases h
    | ok r =>
      obtain ⟨m', remove, h⟩ := bind_eq_ok.1 run
      cases h
      obtain ⟨sound, parent⟩ := (s.mask hm).removeAccountsWithoutNotif hb lists remove
      obtain ⟨t', eq, s'⟩ := s.run hm run sound (by rw [MaskImpl.SameParent, parent])
        (Or.inr childless)
      refine Or.inl ⟨t', ?_, s'⟩
      rw [eq]
      exact updateChilds_run (g := fun childs => .ok (invalidateAll _ childs)) rfl eq childless

theorem sound_create : (Masks.create d : Masks A I F).Sound V d :=
  ⟨Database.sound_create, nofun⟩

theorem reachable_sound (hd : d ≤ rangeHeight) (pos : 0 < d)
    (r : Reachable V (Allowed V) d t) : t.Sound V d := by
  induction r with
  | create => exact sound_create
  | step op _ ok eq ih =>
    rcases ih.step hd pos ok.1 ok.2 with ⟨t', eq', s'⟩ | ⟨e, eq', -⟩
    · rw [eq] at eq'
      cases eq'
      exact s'
    · rw [eq] at eq'
      cases eq'

/-- The root of a mask, the paths to its leaves, and the next operation are as
    they should be. -/
structure Right (V : TreeVersion A I F) (d : ℕ) (t : Masks A I F) : Prop where
  root : ∀ path m, t.mask path = some m → ∃ m', m.merkleRoot V = .ok (V.nodeHash m.view d 0, m')
  path : ∀ path m addr, t.mask path = some m → addr.length = d → ∃ p m', m.merklePath V addr = .ok (p, m') ∧
      Merkle.climb V.hashNode 0 (V.leafHash (m.get addr)) p = V.nodeHash m.view d 0

/-- **Roots and paths.**  In every run of permitted and safe operations, over a
    database of depth at most 36, each mask answers with the root and the paths of
    the full tree over its view, and no operation stores a hash twice. -/
theorem reachable_roots (hd : d ≤ rangeHeight) (pos : 0 < d) (r : Reachable V (Allowed V) d t) :
    t.Right V d ∧ ∀ op : Op A I, t.Permitted op → t.Safe V op → t.step V op ≠ .error .hashAlreadySet := by
  have s := reachable_sound hd pos r
  refine ⟨⟨fun path m hm => ?_, fun path m addr hm len => ?_⟩, fun op permitted safe stop => ?_⟩
  · obtain ⟨m', run, -⟩ := merkleRoot_spec hd pos (s.mask hm).answers
    exact ⟨m', run⟩
  · obtain ⟨m', run, -⟩ := merklePath_spec hd pos len.le (s.mask hm)
    refine ⟨_, m', run, ?_⟩
    have climb := climb_pathTo (V := V) m.view len.le (hd.trans (by decide))
    rw [len, Nat.sub_self] at climb
    rw [get_eq]
    exact climb
  · rcases s.step hd pos permitted safe with ⟨t', eq, -⟩ | ⟨e, eq, ne⟩
    · rw [stop] at eq
      cases eq
    · rw [stop] at eq
      cases eq
      exact ne rfl

/-- Accounts are pairs of an id and a balance; the hash of a node lists the
    leaves below it. -/
def leaves : TreeVersion (ℕ × ℕ) ℕ (List ℕ) where
  empty := (0, 0)
  id := Prod.fst
  hashLeaf a := [a.1, a.2]
  hashNode _ left right := left ++ right

theorem reachable_roots_two_leaves : ∃ t : Masks (ℕ × ℕ) ℕ (List ℕ),
    Reachable leaves (Allowed leaves) 2 t ∧ t.Right leaves 2 := by
  have r₁ : Reachable leaves (Allowed leaves) 2 _ :=
    .step (.makeChild []) .create ⟨⟨_, rfl, trivial⟩, trivial⟩ rfl
  have r₂ := r₁.step (.set [0] (.fromIndex 0 2) (7, 1)) ⟨⟨⟨_, rfl, rfl⟩, rfl⟩, by
    rintro _ ⟨⟩ a h
    cases h⟩ rfl
  have r₃ := r₂.step (.merkleRoot [0]) ⟨⟨_, rfl, trivial⟩, trivial⟩ rfl
  have r₄ := r₃.step (.set [0] (.fromIndex 2 2) (8, 2)) ⟨⟨⟨_, rfl, rfl⟩, rfl⟩, by
    rintro _ ⟨⟩ a h
    cases h⟩ rfl
  exact ⟨_, r₄, (reachable_roots (by decide) (by decide) r₄).1⟩

/-- The id 7 is set at leaf 0 and then at leaf 2: the root forgets leaf 0, which
    the mask still shows. -/
theorem reachable_roots_moved_id : ∃ t : Masks (ℕ × ℕ) ℕ (List ℕ),
    Reachable leaves Permitted 2 t ∧ ¬ t.Right leaves 2 := by
  have r₁ : Reachable leaves Permitted 2 _ :=
    .step (.makeChild []) .create ⟨_, rfl, trivial⟩ rfl
  have r₂ := r₁.step (.set [0] (.fromIndex 0 2) (7, 1)) ⟨⟨_, rfl, rfl⟩, rfl⟩ rfl
  have r₃ := r₂.step (.set [0] (.fromIndex 2 2) (7, 2)) ⟨⟨_, rfl, rfl⟩, rfl⟩ rfl
  refine ⟨_, r₃, fun right => ?_⟩
  obtain ⟨m', eq⟩ := right.root [0] _ rfl
  have : [0, 0, 0, 0, 7, 2, 0, 0] = [7, 1, 0, 0, 7, 2, 0, 0] :=
    congrArg (fun r => r.toOption.elim [] Prod.fst) eq
  exact absurd this (by decide)

-- The parent of leaf 3 keeps the last bit of leaf 3: its hash is computed from
-- leaf 3 twice, and stored.
example : ∃ t : Masks (ℕ × ℕ) ℕ (List ℕ), Reachable leaves Permitted 2 t ∧ ¬ t.Right leaves 2 := by
  have r₁ : Reachable leaves Permitted 2 _ :=
    .step (.makeChild []) .create ⟨_, rfl, trivial⟩ rfl
  have r₂ := r₁.step (.set [0] (.fromIndex 3 2) (7, 1)) ⟨⟨_, rfl, rfl⟩, rfl⟩ rfl
  have r₃ := r₂.step (.getInnerHashAtAddr [0] ⟨(Address.fromIndex 3 2).inner, 1⟩)
    ⟨_, rfl, trivial⟩ rfl
  refine ⟨_, r₃, fun right => ?_⟩
  obtain ⟨m', eq⟩ := right.root [0] _ rfl
  have : [0, 0, 0, 0, 7, 1, 7, 1] = [0, 0, 0, 0, 0, 0, 7, 1] :=
    congrArg (fun r => r.toOption.elim [] Prod.fst) eq
  exact absurd this (by decide)

end Masks

end MinaRust.Ledger
