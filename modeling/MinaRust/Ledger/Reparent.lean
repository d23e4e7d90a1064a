/-
  What the masks show after a commit.

  The masks below answer as before, but for two defects: a child that is registered with a
  new parent gets the last location of that, even if it has accounts after it; and the mask
  itself is left without room for empty hashes, so that it cannot hash an account that is
  written to it later, unless all leaves are filled.
-/
import MinaRust.Ledger.Commit
import MinaRust.Ledger.AfterCommit
import MinaRust.Ledger.Roots

set_option linter.unusedSectionVars false

namespace MinaRust.Ledger

open List MaskImpl Option

variable {A I F : Type} [DecidableEq I]

namespace MaskImpl

structure SameAnswers (V : TreeVersion A I F) (m m' : MaskImpl A I F) : Prop where
  get : ∀ addr, m'.get addr = m.get addr
  location : ∀ id, (m'.locationOfAccount id == m.locationOfAccount id) = true
  numAccounts : m'.numAccounts = m.numAccounts
  lastFilled : (m'.lastFilled == m.lastFilled) = true
  root : ∃ hash m₁ m₁', m.merkleRoot V = .ok (hash, m₁) ∧ m'.merkleRoot V = .ok (hash, m₁')

/-- The mask `m'` can answer, and shows what `m` shows. -/
structure Shows (V : TreeVersion A I F) (d : ℕ) (m m' : MaskImpl A I F) : Prop where
  answers : ∀ last, m'.Answers V d last
  view : m'.view = m.view
  location : ∀ id, (m'.locationOfAccount id).map Address.toIndex =
    (m.locationOfAccount id).map Address.toIndex
  numAccounts : m'.numAccounts = m.numAccounts

variable {V : TreeVersion A I F} {d : ℕ} {m m' : MaskImpl A I F}

theorem Answers.location {last : Address} {id : I} : ∀ {m : MaskImpl A I F}, m.Answers V d last →
    ∀ a, m.locationOfAccount id = some a → a.length = d
  | root _, s, a, h => Database.Sound.index s ⟨id, a⟩ (AList.mem_lookup_iff.1 h)
  | attached own parent, ⟨s, _, p⟩, a, h => by
    rw [locationOfAccount] at h
    cases here : own.idToAddr.lookup id with
    | some b =>
      rw [here] at h
      cases h
      exact s.index ⟨id, a⟩ (AList.mem_lookup_iff.1 here)
    | none =>
      rw [here] at h
      exact Answers.location p a h

theorem Shows.sameAnswers (hd : d ≤ rangeHeight) (pos : 0 < d) (s : m.Sound V d)
    (h : Shows V d m m') : SameAnswers V m m' := by
  have ok : m.Answers V d m.lastAccount := s.answers
  have ok' := h.answers m'.lastAccount
  obtain ⟨m₁, run, -⟩ := merkleRoot_spec hd pos ok
  obtain ⟨m₁', run', -⟩ := merkleRoot_spec hd pos ok'
  exact {
    get := fun addr => by rw [get_eq, get_eq, h.view]
    location := fun id => beq_of_index ok'.location ok.location (h.location id)
    numAccounts := h.numAccounts
    lastFilled := beq_of_index ok'.lastFilled.1 ok.lastFilled.1 (filled_eq_iff.1 h.numAccounts)
    root := ⟨_, m₁, m₁', run, by rw [← h.view]; exact run'⟩ }

variable {own : Layer A I F}

theorem Shows.relocate (s : (attached own m).Sound V d) (h : Shows V d m m') {last : Option Address}
    (leaf : ∀ l, last = some l → l.length = d)
    (le : ∀ {i : ℕ}, (own.owningAccount.lookup i).isSome → Reaches last i)
    (count : max (filled last) m.numAccounts = (attached own m).numAccounts) :
    Shows V d (attached own m) (attached { own with lastLocation := last } m') where
  answers last' := by
    refine ⟨?_, Or.inl s.2.1, h.answers last'⟩
    rw [h.view]
    exact { s.1 with leaf := fun {l} => leaf l, le := le }
  view := by
    rw [MaskImpl.view, h.view]
    rfl
  location id := by
    rw [locationOfAccount, locationOfAccount]
    cases own.idToAddr.lookup id with
    | some a => rfl
    | none => exact h.location id
  numAccounts := by rw [numAccounts_attached, h.numAccounts, count]

theorem Shows.over (s : (attached own m).Sound V d) (h : Shows V d m m') :
    Shows V d (attached own m) (attached own m') :=
  h.relocate s (fun _ => s.1.leaf) s.1.le (numAccounts_attached own m).symm

theorem Kept.shows (k : m.Kept V) (k' : m'.Kept V) (s : m'.Sound V d) (view : m'.view = m.view)
    (count : m'.numAccounts = m.numAccounts) : Shows V d m m' where
  answers _ := s.answers
  view := view
  location := k'.indexes.ext (view ▸ k.indexes)
  numAccounts := count

theorem Shows.flush {parent parent' : MaskImpl A I F} (s : (attached own parent).Sound V d)
    (h : Shows V d (attached own parent) parent') :
    Shows V d (attached own parent) (attached own.flush parent') where
  answers last := by
    refine ⟨?_, Or.inr (Or.inr rfl), h.answers last⟩
    exact {
      depth := s.1.depth
      hashes := ⟨s.1.hashes.depth, fun _ _ h => (by cases h), fun h => (by cases h)⟩
      index := nofun
      leaf := s.1.leaf
      le := fun h => by cases h
      listed := fun h => by cases h }
  view := h.view
  location := h.location
  numAccounts := by
    rw [numAccounts_attached, h.numAccounts, numAccounts_attached]
    exact max_eq_right (le_max_left ..)

end MaskImpl

variable {V : TreeVersion A I F} {d : ℕ}

open MaskImpl in
theorem MaskTree.mask_shows (hd : d ≤ rangeHeight) (pos : 0 < d) : ∀ {r : List ℕ}
    {own own' : Layer A I F} {childs : List (MaskTree A I F)}
    {m m' x : MaskImpl A I F}, (node own childs).Sound V d m.view → m.Sound V d →
    Shows V d (attached own m) (attached own' m') → (node own childs).mask m r = some x →
    ∃ x', (node own' childs).mask m' r = some x' ∧ SameAnswers V x x'
  | [], own, own', childs, m, m', x, .node s room _, p, h, hx => by
    cases hx
    exact ⟨attached own' m', rfl, h.sameAnswers hd pos ⟨s, room, p⟩⟩
  | i :: r, own, own', childs, m, m', x, .node s room all, p, h, hx => by
    rw [mask, bind_eq_some_iff] at hx
    obtain ⟨⟨own₁, childs₁⟩, hc, hx⟩ := hx
    have sound : (node own₁ childs₁).Sound V d (attached own m).view :=
      all _ (mem_of_getElem? hc)
    have top : (attached own₁ (attached own m)).Sound V d := by
      obtain ⟨s₁, room₁, -⟩ := sound
      exact ⟨s₁, room₁, s, room, p⟩
    obtain ⟨x', hx', same⟩ := MaskTree.mask_shows hd pos sound ⟨s, room, p⟩ (h.over top) hx
    exact ⟨x', by rw [mask, hc]; exact hx', same⟩

theorem MaskTree.Sound.childsAt : ∀ {path : List ℕ} {t : MaskTree A I F}
    {parent m : MaskImpl A I F}, t.Sound V d parent.view →
    t.mask parent path = some m → ∀ c ∈ t.childsAt path, c.Sound V d m.view
  | [], .node own childs, parent, m, .node _ _ all, hm, c, hc => by
    cases hm
    exact all c hc
  | i :: path, .node own childs, parent, m, .node _ _ all, hm, c, hc => by
    rw [MaskTree.mask, bind_eq_some_iff] at hm
    obtain ⟨child, found, hm⟩ := hm
    rw [MaskTree.childsAt, found] at hc
    have sound : child.Sound V d (attached own parent).view :=
      all child (mem_of_getElem? found)
    exact MaskTree.Sound.childsAt sound hm c hc

theorem Masks.Sound.childsAt {t : Masks A I F} (s : t.Sound V d) {path : List ℕ} {m : MaskImpl A I F}
    (hm : t.mask path = some m) : ∀ c ∈ t.childsAt path, c.Sound V d m.view := by
  cases path with
  | nil =>
    cases hm
    exact s.childs
  | cons i path =>
    rw [Masks.mask, bind_eq_some_iff] at hm
    obtain ⟨child, found, hm⟩ := hm
    intro c hc
    rw [Masks.childsAt, found] at hc
    have sound : child.Sound V d (MaskImpl.root t.database).view :=
      s.childs child (mem_of_getElem? found)
    exact MaskTree.Sound.childsAt sound hm c hc

theorem MaskTree.register_register (p p' : MaskImpl A I F)
    (c : MaskTree A I F) : (c.register p).register p' = c.register p' := by
  cases c
  rfl

namespace Masks

variable [DecidableEq A] (it : Iteration A) {t : Masks A I F}
  {m : MaskImpl A I F} {path : List ℕ} {i : ℕ}

variable {childs : List (MaskTree A I F)}

theorem commit_spec (hd : d ≤ nbits) {parent : MaskImpl A I F} {own : Layer A I F}
    (hp : t.mask path = some parent) (hc : (t.childsAt path)[i]? = some (.node own childs))
    (s : (attached own parent).Sound V d) (k : (attached own parent).Kept V) :
    ∃ t' p', t.commit V it path i = .ok t' ∧ t'.mask path = some p' ∧ p'.Sound V d ∧
      MaskImpl.Shows V d (.attached own parent) p' ∧
      (t'.childsAt path)[i]? = some (.node own.flush childs) := by
  obtain ⟨p', childs', run, s', k', parent', view, count, -, flushed⟩ :=
    commitChild_spec hd (it.perm (path ++ [i]) own.owningAccount) hc s k
  obtain ⟨t', eq, hp', hcs'⟩ := focus_spec (V := V) hp run parent' s'
  exact ⟨t', p', eq, hp', s', k.shows k' s' view count, by rw [hcs']; exact flushed⟩

theorem commitAndReparent_spec (hd : d ≤ nbits) (hm : t.mask (path ++ [i]) = some m)
    (s : m.Sound V d) (k : m.Kept V) :
    ∃ t' p' n, t.commitAndReparent V it path i = .ok t' ∧ t'.mask path = some p' ∧ p'.Sound V d ∧
      p'.Kept V ∧ p'.view = m.view ∧ p'.numAccounts = m.numAccounts ∧
      ∀ (j : ℕ) (c : MaskTree A I F), (t.childsAt (path ++ [i]))[j]? = some c →
        (t'.childsAt path)[n + j]? = some (c.register p') := by
  obtain ⟨parent, own, childs, hp, hc, rfl, hcs⟩ := mask_snoc hm
  obtain ⟨p', childs', run, s', k', parent', view, count, -, flushed⟩ :=
    commitChild_spec hd (it.perm (path ++ [i]) own.owningAccount) hc s k
  have both : (do
      let s ← commitChild V (it.accounts (path ++ [i])) i (parent, t.childsAt path)
      removeAndReparent i s) =
      .ok (p', childs'.eraseIdx i ++ childs.map (MaskTree.register p')) := by
    rw [run, ok_bind, removeAndReparent, flushed]
  obtain ⟨t', eq, hp', hcs'⟩ := focus_spec (V := V)
    (f := fun s => do
      let s ← commitChild V (it.accounts (path ++ [i])) i s
      removeAndReparent i s) hp both parent' s'
  refine ⟨t', p', (childs'.eraseIdx i).length, eq, hp', s', k', view, count, fun j c h => ?_⟩
  rw [hcs] at h
  rw [hcs', List.getElem?_append_right (Nat.le_add_right ..), Nat.add_sub_cancel_left, List.getElem?_map, h]
  rfl

theorem commitUpwards_spec (hd : d ≤ nbits) : ∀ {i : ℕ} {up : List ℕ} {t : Masks A I F}
    {m : MaskImpl A I F}, t.mask (up.reverse ++ [i]) = some m → m.Sound V d →
    m.Kept V →
    ∃ t' b n, t.commitUpwards V it (i :: up) = .ok t' ∧ t'.mask [] = some b ∧ b.Sound V d ∧
      b.Kept V ∧ b.view = m.view ∧ b.numAccounts = m.numAccounts ∧
      ∀ (j : ℕ) (c : MaskTree A I F), (t.childsAt (up.reverse ++ [i]))[j]? = some c →
        (t'.childsAt [])[n + j]? = some (c.register b)
  | i, [], t, m, hm, s, k => by
    obtain ⟨t', p', n, eq, rest⟩ := commitAndReparent_spec it hd hm s k
    exact ⟨t', p', n, by rw [commitUpwards, eq]; rfl, rest⟩
  | i, i' :: up, t, m, hm, s, k => by
    obtain ⟨t₁, p, n, eq, hp, s₁, k₁, view, count, childs⟩ :=
      commitAndReparent_spec it hd hm s k
    rw [reverse_cons] at hp
    obtain ⟨t', b, n', eq', hb, s', k', view', count', childs'⟩ := commitUpwards_spec hd hp s₁ k₁
    refine ⟨t', b, n' + n, ?_, hb, s', k', view'.trans view, count'.trans count, fun j c h => ?_⟩
    · rw [commitUpwards, eq]
      exact eq'
    · rw [Nat.add_assoc, ← MaskTree.register_register p b c]
      refine childs' _ _ ?_
      rw [← reverse_cons]
      exact childs j c h

/-! ## What is preserved -/

/-- Each mask at or below `place` in `t` has its answers at or below `place'` in
    `t'`. -/
def Survives (V : TreeVersion A I F) (t t' : Masks A I F) (place place' : List ℕ) : Prop :=
  ∀ r x, t.mask (place ++ r) = some x → ∃ x', t'.mask (place' ++ r) = some x' ∧ MaskImpl.SameAnswers V x x'

/-- **A child with a new parent** keeps its answers if and only if it had no
    account after those of its old parent. -/
theorem survives_register (hd : d ≤ rangeHeight) (pos : 0 < d) {t' : Masks A I F} {place place' : List ℕ}
    {j n : ℕ} {b : MaskImpl A I F} {own : Layer A I F} (hm : t.mask place = some m)
    (hc : (t.childsAt place)[j]? = some (.node own childs))
    (sound : (MaskTree.node own childs).Sound V d m.view) (s : m.Sound V d) (hb : t'.mask place' = some b)
    (hc' : (t'.childsAt place')[n]? = some (MaskTree.register b (.node own childs)))
    (shows : MaskImpl.Shows V d m b) :
    Survives V t t' (place ++ [j]) (place' ++ [n]) ↔
      (attached own m).numAccounts = m.numAccounts := by
  have mask (r : List ℕ) : t.mask (place ++ [j] ++ r) = (MaskTree.node own childs).mask m r := by
    rw [append_assoc, singleton_append, mask_append, hm, hc]
    rfl
  have mask' (r : List ℕ) : t'.mask (place' ++ [n] ++ r) =
      (MaskTree.register b (.node own childs)).mask b r := by
    rw [append_assoc, singleton_append, mask_append, hb, hc']
    rfl
  have top : (attached own m).Sound V d := by
    obtain ⟨s₁, room, -⟩ := sound
    exact ⟨s₁, room, s⟩
  constructor
  · intro survives
    obtain ⟨x', hx', same⟩ := survives [] _ (mask [])
    rw [mask'] at hx'
    cases hx'
    rw [← same.numAccounts, numAccounts_attached]
    exact (max_self _).trans shows.numAccounts
  · intro count r x hx
    rw [mask] at hx
    rw [mask']
    have filled : filled b.lastFilled = m.numAccounts := shows.numAccounts
    refine MaskTree.mask_shows hd pos sound s (shows.relocate top
      (shows.answers .root).lastFilled.1 (fun {i} hi => reaches_iff.2 ?_) ?_) hx
    · rw [filled, ← count, numAccounts_attached]
      exact lt_max_of_lt_left (reaches_iff.1 (top.1.le hi))
    · rw [filled, count, max_self]

def TakesOver (V : TreeVersion A I F) (t : Masks A I F) (place : List ℕ) (m : MaskImpl A I F) : Prop :=
  ∃ p, t.mask place = some p ∧ MaskImpl.SameAnswers V m p

def stored (A : Type) : Iteration A := ⟨fun _ M => M.entries, fun _ _ => .refl _⟩

end Masks

end MinaRust.Ledger
