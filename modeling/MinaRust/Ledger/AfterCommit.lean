/-
  A mask that has committed.

  Its vector of empty hashes is left with length 0.  As long as the mask has no accounts its
  parent computes all hashes.  After a write the mask does so itself, and stops at the first
  empty hash; it needs none if all leaves are filled.
-/
import MinaRust.Ledger.Locations

set_option linter.unusedSectionVars false

namespace MinaRust.Ledger

open AList Address Bool Nat Layer MaskImpl

variable {A I F : Type} [DecidableEq I]

namespace MaskImpl

inductive Used (V : TreeVersion A I F) (d : ℕ) (m₀ : MaskImpl A I F) : MaskImpl A I F → Prop
  | refl : Used V d m₀ m₀
  | set {m : MaskImpl A I F} {addr : Address} {account : A} :
      Used V d m₀ m → addr.length = d → m.Keeps V addr account → Used V d m₀ (m.set V addr account)
  | getOrCreateAccount {m m' : MaskImpl A I F} {accountId : I}
      {account : A} {result : Except DatabaseError GetOrCreated} :
      Used V d m₀ m → m.getOrCreateAccount accountId account = .ok (result, m') → Used V d m₀ m'
  | merkleRoot {m m' : MaskImpl A I F} {hash : F} :
      Used V d m₀ m → m.merkleRoot V = .ok (hash, m') → Used V d m₀ m'

/-- Nothing is done if the id is located or no leaf is left; else the account is added at the
    next leaf. -/
inductive Creates (d : ℕ) (accountId : I) (account : A)
    (m : MaskImpl A I F) :
    Except DatabaseError GetOrCreated → MaskImpl A I F → Prop
  | existed {addr : Address} : m.locationOfAccount accountId = some addr →
      Creates d accountId account m (.ok (.existed addr)) m
  | outOfLeaves : m.locationOfAccount accountId = none → nextLocation d m.lastFilled = none →
      Creates d accountId account m (.error .outOfLeaves) m
  | added {addr : Address} {m' : MaskImpl A I F} :
      m.locationOfAccount accountId = none → nextLocation d m.lastFilled = some addr →
      m'.view = Function.update m.view addr.toIndex (some account) →
      m'.locationOfAccount accountId = some addr →
      Creates d accountId account m (.ok (.added addr)) m'

/-- However it is used, the mask answers with the root over its view, and writes
    to its view. -/
structure Usable (V : TreeVersion A I F) (d : ℕ) (m₀ : MaskImpl A I F) : Prop where
  merkleRoot : ∀ m, Used V d m₀ m → ∃ m', m.merkleRoot V = .ok (V.nodeHash m.view d 0, m')
  set : ∀ m, Used V d m₀ m → ∀ addr account,
    (m.set V addr account).view = Function.update m.view addr.toIndex (some account) ∧
      (m.set V addr account).locationOfAccount (V.id account) = some addr
  getOrCreateAccount : ∀ m, Used V d m₀ m → ∀ accountId account, ∃ result m',
    m.getOrCreateAccount accountId account = .ok (result, m') ∧ Creates d accountId account m result m'

variable {V : TreeVersion A I F} {d : ℕ}

theorem creates_attached {own : Layer A I F} (depth : own.depth = d)
    (parent : MaskImpl A I F) (accountId : I) (account : A) :
    ∃ result m', (attached own parent).getOrCreateAccount accountId account = .ok (result, m') ∧
      Creates d accountId account (attached own parent) result m' := by
  rw [MaskImpl.getOrCreateAccount, depth]
  cases located : (attached own parent).locationOfAccount accountId with
  | some addr => exact ⟨_, _, rfl, .existed located⟩
  | none =>
    cases next : nextLocation d (attached own parent).lastFilled with
    | none => exact ⟨_, _, rfl, .outOfLeaves located next⟩
    | some addr =>
      refine ⟨_, _, rfl, .added located next ?_ ?_⟩
      · funext i
        rw [view, view, Function.update_apply, overlay, overlay, create]
        split
        · next same =>
          rw [same, lookup_insert]
          rfl
        · next ne => rw [lookup_insert_ne ne]
      · rw [locationOfAccount, create, lookup_insert]
        rfl

theorem location_set (addr : Address) (account : A) : ∀ m : MaskImpl A I F,
    (m.set V addr account).locationOfAccount (V.id account) = some addr
  | root _ => lookup_insert _
  | attached own parent => by
    rw [set, locationOfAccount, Layer.set, lookup_insert]
    rfl
  | unattached own => lookup_insert _

/-! ## All leaves are filled -/

structure Full (V : TreeVersion A I F) (d : ℕ) (own : Layer A I F)
    (parent : MaskImpl A I F) : Prop where
  sound : own.Sound V d parent.view
  exact : own.Exact
  below : parent.Sound V d
  count : (attached own parent).numAccounts = 2 ^ d

variable {own : Layer A I F} {parent : MaskImpl A I F}

theorem Full.answers (h : Full V d own parent) :
    (attached own parent).Answers V d (attached own parent).lastAccount := by
  refine ⟨h.sound, Or.inr (Or.inl ⟨?_, h.exact⟩), h.below.answers⟩
  have count := h.count
  rw [lastAccount]
  rw [numAccounts] at count
  cases last : (attached own parent).lastFilled with
  | none =>
    rw [last] at count
    exact absurd count (Nat.two_pow_pos d).ne
  | some l =>
    rw [last] at count
    exact count

theorem Full.set (hd : d ≤ nbits) (h : Full V d own parent) {addr : Address} {account : A}
    (ha : addr.length = d) (keeps : own.Keeps V addr account) :
    Full V d (own.set V addr account) parent where
  sound := h.sound.set hd ha keeps
  exact e he := by
    rw [Layer.set]
    by_cases same : e.2.toIndex = addr.toIndex
    · rw [same, lookup_insert]
      rfl
    · rw [lookup_insert_ne same]
      rcases mem_entries_insert he with rfl | he
      · exact absurd rfl same
      · exact h.exact e he
  below := h.below
  count := by
    have set := numAccounts_set (V := V) addr account (attached own parent)
    rw [h.count] at set
    refine set.trans (max_eq_left ?_)
    have := toIndex_lt (ha.trans_le hd)
    rw [ha] at this
    exact this

theorem Full.getOrCreateAccount (hd : d ≤ nbits) (h : Full V d own parent) {accountId : I} {account : A}
    {result : Except DatabaseError GetOrCreated} {m' : MaskImpl A I F}
    (run : (attached own parent).getOrCreateAccount accountId account = .ok (result, m')) :
    m' = attached own parent := by
  rw [MaskImpl.getOrCreateAccount, h.sound.depth] at run
  split at run
  · cases run
    rfl
  · split at run
    · cases run
      rfl
    · next addr next =>
      obtain ⟨len, after⟩ := nextLocation_eq_some hd h.answers.lastFilled.1 next
      have reaches : Reaches (attached own parent).lastFilled (2 ^ d - 1) :=
        reaches_iff.2 ((Nat.sub_one_lt (Nat.two_pow_pos d).ne').trans_eq h.count.symm)
      have beyond := after reaches
      have := toIndex_lt (len.trans_le hd)
      rw [len] at this
      omega

theorem same_of_strip {own' : Layer A I F} (h : own'.strip = own.strip) :
    own'.owningAccount = own.owningAccount ∧ own'.idToAddr = own.idToAddr ∧
      own'.lastLocation = own.lastLocation := by
  simp only [Layer.strip, Layer.mk.injEq] at h
  exact ⟨h.1, h.2.1, h.2.2.1⟩

theorem numAccounts_of_strip : ∀ {m m' : MaskImpl A I F}, m'.strip = m.strip →
    m'.numAccounts = m.numAccounts
  | root database, root database', h => by
    simp only [strip, Database.strip, root.injEq, Database.mk.injEq] at h
    exact congrArg filled h.2.2.2.2.1
  | attached own parent, attached own' parent', h => by
    injection h with own_eq parent_eq
    rw [numAccounts_attached, numAccounts_attached, numAccounts_of_strip parent_eq,
      (same_of_strip own_eq).2.2]
  | unattached own, unattached own', h => by
    injection h with own_eq
    exact congrArg filled (same_of_strip own_eq).2.2

theorem Full.merkleRoot (hd : d ≤ rangeHeight) (pos : 0 < d) (h : Full V d own parent) :
    ∃ own' parent', (attached own parent).merkleRoot V =
      .ok (V.nodeHash (attached own parent).view d 0, attached own' parent') ∧
      Full V d own' parent' := by
  obtain ⟨m', run, answers, strip⟩ := merkleRoot_spec hd pos h.answers
  cases m' with
  | attached own' parent' =>
    have count := (numAccounts_of_strip strip).trans h.count
    injection strip with own_eq parent_eq
    obtain ⟨sound, -, below⟩ := answers
    obtain ⟨accounts, index, -⟩ := same_of_strip own_eq
    refine ⟨own', parent', run, sound, fun e he => ?_, below.sound_of_strip parent_eq h.below, count⟩
    rw [accounts]
    exact h.exact e (index ▸ he)
  | root _ | unattached _ => cases strip

theorem Full.used (hd : d ≤ rangeHeight) (pos : 0 < d) (h : Full V d own parent)
    {m : MaskImpl A I F} (used : Used V d (attached own parent) m) :
    ∃ own' parent', m = attached own' parent' ∧ Full V d own' parent' := by
  have hb : d ≤ nbits := hd.trans (by decide)
  induction used with
  | refl => exact ⟨own, parent, rfl, h⟩
  | set _ ha keeps ih =>
    obtain ⟨own', parent', rfl, h'⟩ := ih
    exact ⟨_, parent', rfl, h'.set hb ha keeps⟩
  | getOrCreateAccount _ run ih =>
    obtain ⟨own', parent', rfl, h'⟩ := ih
    exact ⟨own', parent', h'.getOrCreateAccount hb run, h'⟩
  | merkleRoot _ run ih =>
    obtain ⟨own', parent', rfl, h'⟩ := ih
    obtain ⟨own'', parent'', run', h''⟩ := h'.merkleRoot hd pos
    rw [run] at run'
    cases run'
    exact ⟨own'', parent'', rfl, h''⟩

theorem Full.usable (hd : d ≤ rangeHeight) (pos : 0 < d) (h : Full V d own parent) :
    (attached own parent).Usable V d where
  merkleRoot m used := by
    obtain ⟨own', parent', rfl, h'⟩ := h.used hd pos used
    obtain ⟨own'', parent'', run, -⟩ := h'.merkleRoot hd pos
    exact ⟨_, run⟩
  set m _ addr account := ⟨view_set addr account m, location_set addr account m⟩
  getOrCreateAccount m used accountId account := by
    obtain ⟨own', parent', rfl, h'⟩ := h.used hd pos used
    exact creates_attached h'.sound.depth parent' accountId account

/-! ## Some leaf is not filled -/

/-- A mask without room for empty hashes and without hashes, with one account, at
    the last leaf but one. -/
structure Lone (d : ℕ) (own : Layer A I F) (addr : Address) : Prop where
  depth : own.depth = d
  fresh : ∀ k, own.hashes.matrix.lookup k = none
  noRoom : own.hashes.emptyHashes = []
  index : ∃ id, own.idToAddr.entries = [⟨id, addr⟩]
  here : (own.owningAccount.lookup addr.toIndex).isSome
  leaf : addr.length = d
  before : addr.toIndex + 2 = 2 ^ d

section
omit [DecidableEq I]

variable {a last : Address} {height : ℕ}

theorem getChildHash_before {deeper : Address → MaskImpl A I F → Except Panic (F × MaskImpl A I F)}
    (fresh : own.hashes.get a = none) (before : a.isBefore last = true) :
    getChildHash (cache V) last height deeper a (attached own parent) = deeper a (attached own parent) := by
  simp [getChildHash, cache, hashes, fresh, before]

variable {here : MaskImpl A I F → Except Panic (F × MaskImpl A I F)}
  {atRoot : Database A I F → Except Panic (F × Database A I F)}

theorem orParent_here (fresh : own.hashes.get a = none) (lists : own.listsBelow a = true) :
    orParent a here atRoot (attached own parent) = here (attached own parent) := by
  simp [orParent, fresh, lists]

theorem orParent_parent (fresh : own.hashes.get a = none) (lists : own.listsBelow a = false) :
    orParent a here atRoot (attached own parent) = (do
      let (hash, parent) ← orParent a here atRoot parent
      .ok (hash, attached own parent)) := by
  simp [orParent, fresh, lists, false_eq_true]

end

theorem lastNode {i n : ℕ} (h : i + 2 = 2 ^ d) (pos : 0 < n) (hn : n ≤ d) : i / 2 ^ n + 1 = 2 ^ (d - n) := by
  have split : 2 ^ d = 2 ^ (d - n) * 2 ^ n := by rw [← pow_add, Nat.sub_add_cancel hn]
  have two : 2 ≤ 2 ^ n := Nat.le_self_pow pos.ne' 2
  obtain ⟨q, hq⟩ : ∃ q, 2 ^ (d - n) = q + 1 := ⟨2 ^ (d - n) - 1, (Nat.succ_pred (Nat.two_pow_pos _).ne').symm⟩
  rw [hq, succ_mul] at split
  rw [hq, show i = 2 ^ n * q + (2 ^ n - 2) by rw [mul_comm]; omega,
    mul_add_div (Nat.two_pow_pos n), div_eq_of_lt (by omega)]

theorem Lone.listsBelow {addr a : Address} (h : Lone d own addr) (hd : d ≤ nbits) (ha : a.length ≤ d) :
    own.listsBelow a = true ↔ addr.toIndex / 2 ^ (d - a.length) = a.toIndex := by
  obtain ⟨id, index⟩ := h.index
  have leaf := h.leaf
  rw [Layer.listsBelow, index, List.any_cons, List.any_nil, Bool.or_false]
  show a.isParentOf addr = true ↔ _
  rw [isParentOf_iff (by omega) (by omega), leaf]

theorem Lone.stops_leaf (hd : d ≤ nbits) {addr last a : Address} (h : Lone d own addr)
    (hl : last.length = d) (index : last.toIndex = addr.toIndex) (clean : a.Clean)
    (ha : a.length + 1 = d) (hi : a.toIndex + 1 = 2 ^ a.length) :
    ∃ e, emulateTreeRecursive V last 1 a (attached own parent) = .error e := by
  obtain ⟨left, -⟩ := toIndex_childLeft (by omega : a.length < nbits) clean
  obtain ⟨right, -⟩ := toIndex_childRight (by omega : a.length < nbits) clean
  have before := h.before
  have pow : 2 ^ d = 2 * 2 ^ a.length := by rw [← ha, pow_succ, mul_comm]
  have hleft : a.childLeft.toIndex = addr.toIndex := by omega
  have lenLeft : a.childLeft.length = d := ha
  have lenRight : a.childRight.length = d := ha
  obtain ⟨account, here⟩ := Option.isSome_iff_exists.1 h.here
  have bound : addr.toIndex < 2 ^ d := by omega
  -- the left child
  have first : leafHash V a.childLeft (attached own parent) = .ok (V.hashLeaf account,
      attached { own with hashes := { own.hashes with
        matrix := own.hashes.matrix.insert (fromIndex addr.toIndex d).toLinearIndex
          (V.hashLeaf account) } } parent) := by
    rw [leafHash, hleft, getAccountHash, here]
    simp [accountHash, HashesMatrix.get, HashesMatrix.set, h.fresh, h.depth, ok_bind]
  have lists : own.listsBelow a.childLeft = true := by
    rw [h.listsBelow hd lenLeft.le, lenLeft, Nat.sub_self, pow_zero, Nat.div_one, hleft]
  have beforeLeft : a.childLeft.isBefore last = true := by
    rw [isBefore_iff (by omega) (by omega), hl, lenLeft, Nat.sub_self, pow_zero]
    omega
  -- the right child
  have fresh : (own.hashes.matrix.insert (fromIndex addr.toIndex d).toLinearIndex
      (V.hashLeaf account)).lookup a.childRight.toLinearIndex = none := by
    rw [lookup_insert_ne, h.fresh]
    rw [toLinearIndex, toLinearIndex, toIndex_fromIndex bound hd, lenRight,
      show (fromIndex addr.toIndex d).length = d from rfl]
    omega
  have afterRight : a.childRight.isBefore last = false := by
    rw [eq_false_iff, ne_eq, isBefore_iff (by omega) (by omega), hl, lenRight, Nat.sub_self, pow_zero]
    omega
  refine ⟨.indexOutOfBounds, ?_⟩
  simp only [emulateTreeRecursive, hashFromChildren, getChildHash, cache, hashes,
    HashesMatrix.get, h.fresh, beforeLeft, if_true, orParent, lists, first, ok_bind, fresh,
    afterRight, false_eq_true, if_false, withHashes, HashesMatrix.emptyHashAtHeight, h.noRoom]
  rfl

/-- **The way to the account.**  Left of it the parent computes the hashes. -/
theorem Lone.stops (hd : d ≤ nbits) {addr last : Address} (h : Lone d own addr)
    (hl : last.length = d) (index : last.toIndex = addr.toIndex) : ∀ {n : ℕ} {a : Address}
    (parent : MaskImpl A I F), a.Clean → a.length + (n + 1) = d →
    a.toIndex + 1 = 2 ^ a.length →
    ∃ e, emulateTreeRecursive V last (n + 1) a (attached own parent) = .error e
  | 0, a, parent, clean, ha, hi => h.stops_leaf hd hl index clean ha hi
  | n + 1, a, parent, clean, ha, hi => by
    obtain ⟨left, cleanLeft⟩ := toIndex_childLeft (by omega : a.length < nbits) clean
    obtain ⟨right, cleanRight⟩ := toIndex_childRight (by omega : a.length < nbits) clean
    have lenLeft : a.childLeft.length = a.length + 1 := rfl
    have lenRight : a.childRight.length = a.length + 1 := rfl
    have pow : 2 ^ (a.length + 1) = 2 * 2 ^ a.length := by rw [pow_succ, mul_comm]
    have node := lastNode h.before (succ_pos n) (by omega)
    obtain ⟨q, hq⟩ : ∃ q, addr.toIndex / 2 ^ (n + 1) = q := ⟨_, rfl⟩
    rw [show d - (n + 1) = a.length + 1 by omega, hq, pow] at node
    have above : d - (a.length + 1) = n + 1 := by omega
    have lists : own.listsBelow a.childRight = true := by
      rw [h.listsBelow hd (by omega), lenRight, above, hq]
      omega
    have not_lists : own.listsBelow a.childLeft = false := by
      rw [eq_false_iff, ne_eq, h.listsBelow hd (by omega), lenLeft, above, hq]
      omega
    have beforeLeft : a.childLeft.isBefore last = true := by
      rw [isBefore_iff (by omega) (by omega), hl, index, lenLeft, above, hq]
      omega
    have beforeRight : a.childRight.isBefore last = true := by
      rw [isBefore_iff (by omega) (by omega), hl, index, lenRight, above, hq]
      omega
    rw [emulateTreeRecursive, hashFromChildren, getChildHash_before (h.fresh _) beforeLeft,
      orParent_parent (h.fresh _) not_lists]
    cases orParent a.childLeft _ _ parent with
    | error e => exact ⟨e, rfl⟩
    | ok r =>
      obtain ⟨hash, parent'⟩ := r
      obtain ⟨e, stop⟩ := Lone.stops hd h hl index (n := n) parent' cleanRight (by omega)
        (by rw [lenRight, pow]; omega)
      refine ⟨e, ?_⟩
      simp only [ok_bind]
      rw [getChildHash_before (h.fresh _) beforeRight, orParent_here (h.fresh _) lists, stop]
      rfl

/-- **A mask without room for empty hashes cannot be used**, unless all leaves are
    filled. -/
theorem not_usable (hd : d ≤ nbits) (pos : 0 < d) (s : own.Sound V d parent.view) (p : parent.Sound V d)
    (index : own.idToAddr = ∅) (matrix : own.hashes.matrix = ∅) (noRoom : own.hashes.emptyHashes = [])
    (count : (attached own parent).numAccounts ≠ 2 ^ d) : ¬ (attached own parent).Usable V d := by
  intro usable
  have two : 2 ≤ 2 ^ d := Nat.le_self_pow pos.ne' 2
  have ok : (attached own parent).Answers V d .root :=
    ⟨s, Or.inr (Or.inr (by rw [index]; rfl)), p.answers⟩
  have bound : (attached own parent).numAccounts ≤ 2 ^ d := by
    rw [numAccounts]
    cases last : (attached own parent).lastFilled with
    | none => exact zero_le _
    | some l =>
      have := toIndex_lt ((ok.lastFilled.1 l last).trans_le hd)
      rw [ok.lastFilled.1 l last] at this
      exact this
  -- write to the last leaf but one, and ask for the root
  let addr := fromIndex (2 ^ d - 2) d
  have hi : addr.toIndex = 2 ^ d - 2 := toIndex_fromIndex (by omega) hd
  have keeps : (attached own parent).Keeps V addr V.empty := fun a h => by
    rw [index] at h
    cases h
  obtain ⟨m', run⟩ := usable.merkleRoot _ (.set .refl rfl keeps)
  have lone : Lone d (own.set V addr V.empty) addr := {
    depth := s.depth
    fresh := fun k => by
      rw [← Option.not_isSome_iff_eq_none, Option.isSome_iff_exists]
      rintro ⟨x, hx⟩
      have depth := s.hashes.depth
      have := (HashesMatrix.lookup_invalidateLoop rfl (depth.trans_le hd) hx).1
      rw [matrix] at this
      cases this
    noRoom := noRoom
    index := ⟨V.id V.empty, by rw [Layer.set, index]; rfl⟩
    here := by
      rw [Layer.set, lookup_insert]
      rfl
    leaf := rfl
    before := by omega }
  have filled : (attached (own.set V addr V.empty) parent).numAccounts = 2 ^ d - 1 := by
    rw [show attached (own.set V addr V.empty) parent = (attached own parent).set V addr V.empty
      from rfl, numAccounts_set]
    omega
  obtain ⟨l, hl, len, last⟩ : ∃ l, (attached (own.set V addr V.empty) parent).lastFilled = some l ∧
      l.length = d ∧ l.toIndex = addr.toIndex := by
    rw [numAccounts] at filled
    cases last : (attached (own.set V addr V.empty) parent).lastFilled with
    | none =>
      rw [last] at filled
      exact absurd (show 0 = 2 ^ d - 1 from filled) (by omega)
    | some l =>
      rw [last] at filled
      have : l.toIndex + 1 = 2 ^ d - 1 := filled
      refine ⟨l, rfl, ?_, by omega⟩
      rcases (lastFilled_attached (own.set V addr V.empty) parent).1 with eq | eq
      · exact leaf_extendLast rfl (fun _ => s.leaf) (eq.symm.trans last)
      · have ok : parent.Answers V d .root := p.answers
        exact ok.lastFilled.1 l (eq.symm.trans last)
  obtain ⟨n, rfl⟩ : ∃ n, d = n + 1 := ⟨d - 1, by omega⟩
  obtain ⟨e, stop⟩ := lone.stops (V := V) hd len last parent clean_root (zero_add _) rfl
  have lists : (own.set V addr V.empty).listsBelow .root = true := by
    rw [lone.listsBelow hd (zero_le _)]
    exact div_eq_of_lt (show addr.toIndex < 2 ^ (n + 1) by omega)
  have root : (attached (own.set V addr V.empty) parent).merkleRoot V = .error e := by
    have get : (attached (own.set V addr V.empty) parent).hashes.get .root = none := lone.fresh _
    rw [merkleRoot, emulateTreeToGetHashAt, get]
    rw [computeHashOrParent, orParent_here (lone.fresh _) lists, lastAccount, hl]
    show emulateTreeRecursive V l (own.depth - 0) _ _ = _
    rw [s.depth]
    exact stop
  rw [show (attached own parent).set V addr V.empty = attached (own.set V addr V.empty) parent
    from rfl, root] at run
  cases run

end MaskImpl

end MinaRust.Ledger
