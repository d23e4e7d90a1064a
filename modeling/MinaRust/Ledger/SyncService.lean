/-
  What the ledger of a node does for the sync of a snarked ledger (`node/src/ledger/mod.rs`,
  `ledger_service.rs`).  The pending ledger of a sync is a root mask (`Local`); a node that
  answers queries has any mask.
-/
import Mathlib
import MinaRust.Ledger.View

set_option linter.unusedSectionVars false

namespace MinaRust.Ledger

open List Function Address MaskImpl

def LEDGER_DEPTH : ℕ := 35

/-- A ledger hash on the wire: a field element, or bytes that are none. -/
inductive LedgerHash (F : Type) where
  | field (x : F)
  | invalid (bytes : ℕ)
  deriving DecidableEq, Repr

def LedgerHash.toField {F : Type} : LedgerHash F → Option F
  | .field x => some x
  | .invalid _ => none

inductive SyncPanic where
  | ledger (e : Panic)
  /-- `unwrap` of an error in the ledger service. -/
  | service
  /-- `ilog2` of zero, after `next_power_of_two` has overflowed. -/
  | logarithm
  /-- `checked_add` of a progress counter, whose `None` is unwrapped. -/
  | overflow
  deriving DecidableEq, Repr

def treeHeightForNumAccounts (numAccounts : ℕ) : Except SyncPanic ℕ :=
  if numAccounts = 1 then .ok 1
  else if 2 ^ Nat.log 2 numAccounts = numAccounts then .ok (Nat.log 2 numAccounts)
  else if numAccounts ≤ 2 ^ 63 then .ok (Nat.log 2 (2 ^ Nat.clog 2 numAccounts))
  else .error .logarithm

variable {A I F : Type} [DecidableEq I] (V : TreeVersion A I F)

def ledgerEmptyHashAtDepth (depth : ℕ) : F := V.emptyHashAtHeight (LEDGER_DEPTH - depth)

def completeHeightTreeWithEmpties (contentHash : LedgerHash F) (subtreeHeight : ℕ) : Option (LedgerHash F) :=
  contentHash.toField.map fun contentHash =>
    .field ((List.range' subtreeHeight (LEDGER_DEPTH - subtreeHeight)).foldl (fun prevHash height =>
      V.hashNode height prevHash (ledgerEmptyHashAtDepth V (LEDGER_DEPTH - height))) contentHash)

/-- `complete_num_accounts_tree_with_empties`; `none` is `InvalidBigInt`. -/
def completeNumAccountsTreeWithEmpties (contentsHash : LedgerHash F) (numAccounts : ℕ) :
    Except SyncPanic (Option (LedgerHash F)) :=
  if numAccounts = 0 then .ok (some (.field (ledgerEmptyHashAtDepth V 0)))
  else do
    let subtreeHeight ← treeHeightForNumAccounts numAccounts
    if LEDGER_DEPTH < subtreeHeight then return some (.field (ledgerEmptyHashAtDepth V 0))
    else return completeHeightTreeWithEmpties V contentsHash subtreeHeight

def hashNodeAtDepth (depth : ℕ) (left right : F) : F := V.hashNode (LEDGER_DEPTH - depth - 1) left right

/-! ## The pending ledger -/

def innerHash (addr : Address) (m : MaskImpl A I F) : Except SyncPanic (F × MaskImpl A I F) :=
  match m.getInnerHashAtAddr V addr with
  | .ok (.ok hash, m) => .ok (hash, m)
  | .ok (.error _, _) => .error .service
  | .error e => .error (.ledger e)

def childHashesGet (parent : Address) (m : MaskImpl A I F) :
    Except SyncPanic ((F × F) × MaskImpl A I F) := do
  let (leftHash, m) ← innerHash V parent.childLeft m
  let (rightHash, m) ← innerHash V parent.childRight m
  return ((leftHash, rightHash), m)

/-- `addr.iter_children(depth)`: the leaves below an address. -/
def leafBelow (addr : Address) (depth i : ℕ) : Address :=
  .fromIndex (addr.toIndex * 2 ^ (depth - addr.length) + i) depth

/-- The loop of `set_all_accounts_rooted_at` over the leaves below `addr` and the accounts. -/
def setFrom (addr : Address) : ℕ → List A → MaskImpl A I F → MaskImpl A I F
  | _, [], m => m
  | i, account :: accounts, m => setFrom addr (i + 1) accounts (m.set V (leafBelow addr m.depth i) account)

def setAllAccountsRootedAt (addr : Address) (accounts : List A) (m : MaskImpl A I F) :
    Option (MaskImpl A I F) :=
  if m.depth < addr.length then none
  else some (setFrom V addr 0 (accounts.take (2 ^ (m.depth - addr.length))) m)

/-- `accounts_set`, whose errors are unwrapped.  An account that does not decode is `none`. -/
def accountsSet (parent : Address) (accounts : List (Option A)) (m : MaskImpl A I F) :
    Except SyncPanic (F × MaskImpl A I F) := do
  let accounts ← okOr .service (accounts.mapM id)
  let m ← okOr .service (setAllAccountsRootedAt V parent accounts m)
  innerHash V parent m

/-! ## The answers of a node -/

def getHash (addr : Address) (m : MaskImpl A I F) : Except SyncPanic (Option F × MaskImpl A I F) :=
  match m.getInnerHashAtAddr V addr with
  | .ok (hash, m) => .ok (hash.toOption, m)
  | .error e => .error (.ledger e)

def getNumAccounts (m : MaskImpl A I F) : Except SyncPanic (Option (ℕ × F) × MaskImpl A I F) := do
  let numAccounts := m.numAccounts
  let height ← treeHeightForNumAccounts numAccounts
  let (hash, m) ← getHash V (.first (LEDGER_DEPTH - height)) m
  return (hash.map fun hash => (numAccounts, hash), m)

/-- A hash of `get_child_hashes`: that of an empty node when there is none. -/
def getHashOrEmpty (addr : Address) (m : MaskImpl A I F) : Except SyncPanic (F × MaskImpl A I F) := do
  let (hash, m) ← getHash V addr m
  match hash with
  | some hash => return (hash, m)
  | none => if addr.length ≤ LEDGER_DEPTH then return (ledgerEmptyHashAtDepth V addr.length, m) else .error .service

def getChildHashes (addr : Address) (m : MaskImpl A I F) : Except SyncPanic ((F × F) × MaskImpl A I F) := do
  let (left, m) ← getHashOrEmpty V addr.childLeft m
  let (right, m) ← getHashOrEmpty V addr.childRight m
  return ((left, right), m)

def getChildAccounts (addr : Address) (m : MaskImpl A I F) : Option (List A) :=
  if m.depth < addr.length then none
  else
    let accounts := (List.range (2 ^ (m.depth - addr.length))).filterMap fun i => m.get (leafBelow addr m.depth i)
    if accounts.isEmpty then none else some accounts

/-! ## Subtrees -/

def Below (a : Address) (j : ℕ) : Prop := j / 2 ^ (LEDGER_DEPTH - a.length) = a.toIndex

variable {V} {view view' : ℕ → Option A} {m : MaskImpl A I F} {a : Address}

def hashAtAddr (V : TreeVersion A I F) (view : ℕ → Option A) (a : Address) : F :=
  V.nodeHash view (LEDGER_DEPTH - a.length) a.toIndex

theorem hashAtAddr_congr (same : ∀ j, Below a j → view j = view' j) : hashAtAddr V view a = hashAtAddr V view' a :=
  TreeVersion.nodeHash_congr same

theorem below_child (short : a.length < LEDGER_DEPTH) (clean : a.Clean) (j : ℕ) :
    Below a j ↔ Below a.childLeft j ∨ Below a.childRight j := by
  have bits : a.length < nbits := short.trans (by decide)
  have half : LEDGER_DEPTH - a.length = (LEDGER_DEPTH - (a.length + 1)) + 1 := by omega
  have left : a.childLeft.length = a.length + 1 := rfl
  have right : a.childRight.length = a.length + 1 := rfl
  unfold Below
  rw [(toIndex_childLeft bits clean).1, (toIndex_childRight bits clean).1, left, right, half,
    Merkle.div_two_pow_succ]
  omega

theorem not_below_both (short : a.length < LEDGER_DEPTH) (clean : a.Clean) {j : ℕ} (left : Below a.childLeft j) :
    ¬ Below a.childRight j := by
  have bits : a.length < nbits := short.trans (by decide)
  unfold Below at *
  rw [(toIndex_childLeft bits clean).1] at left
  rw [(toIndex_childRight bits clean).1]
  have same : a.childRight.length = a.childLeft.length := rfl
  rw [same]
  omega

theorem hashAtAddr_node (short : a.length < LEDGER_DEPTH) (clean : a.Clean) : hashAtAddr V view a =
      hashNodeAtDepth V a.length (hashAtAddr V view a.childLeft) (hashAtAddr V view a.childRight) := by
  have bits : a.length < nbits := short.trans (by decide)
  have half : LEDGER_DEPTH - a.length = (LEDGER_DEPTH - (a.length + 1)) + 1 := by omega
  unfold hashAtAddr hashNodeAtDepth
  rw [(toIndex_childLeft bits clean).1, (toIndex_childRight bits clean).1, half]
  rfl

variable {height : ℕ}

theorem completeHeightTree_eq (fits : height ≤ LEDGER_DEPTH) (within : ∀ j, 2 ^ height ≤ j → view j = none) :
    completeHeightTreeWithEmpties V (.field (V.nodeHash view height 0)) height =
      some (.field (V.nodeHash view LEDGER_DEPTH 0)) := by
  have climb : ∀ n, height + n ≤ LEDGER_DEPTH → (List.range' height n).foldl (fun prevHash h =>
        V.hashNode h prevHash (ledgerEmptyHashAtDepth V (LEDGER_DEPTH - h))) (V.nodeHash view height 0) =
      V.nodeHash view (height + n) 0 := by
    intro n
    induction n with
    | zero => intro _; rfl
    | succ n ih =>
      intro room
      have empty : V.nodeHash view (height + n) 1 = V.emptyHashAtHeight (height + n) := by
        refine TreeVersion.nodeHash_empty fun j above => within j ?_
        have far : 2 ^ (height + n) ≤ j := by
          by_contra near
          rw [Nat.div_eq_of_lt (not_le.1 near)] at above
          cases above
        exact (Nat.pow_le_pow_right (by decide) (Nat.le_add_right height n)).trans far
      have back : LEDGER_DEPTH - (LEDGER_DEPTH - (height + n)) = height + n := by omega
      rw [range'_concat, foldl_append, ih (by omega), Nat.one_mul]
      simp only [foldl_cons, foldl_nil, ledgerEmptyHashAtDepth, back, ← empty]
      rfl
  have all := climb (LEDGER_DEPTH - height) (by omega)
  rw [Nat.add_sub_cancel' fits] at all
  simp [completeHeightTreeWithEmpties, LedgerHash.toField, all]

/-! ## Root masks -/

/-- A root mask with sound hashes over the accounts `view`. -/
def Local (V : TreeVersion A I F) (view : ℕ → Option A) (m : MaskImpl A I F) : Prop :=
  ∃ db, m = .root db ∧ db.Sound V LEDGER_DEPTH ∧ db.getAtIndex = view

theorem Local.innerHash (h : Local V view m) (clean : a.Clean) (short : a.length ≤ LEDGER_DEPTH) :
    ∃ m', Ledger.innerHash V a m = .ok (hashAtAddr V view a, m') ∧ Local V view m' := by
  obtain ⟨db, rfl, sound, rfl⟩ := h
  obtain ⟨r, m', run, ⟨ok, strip⟩, result⟩ :=
    getInnerHashAtAddr_spec (m := .root db) (V := V) (by decide) (by decide) clean sound
  rw [result short] at run
  cases m' with
  | root db' =>
    refine ⟨.root db', ?_, db', rfl, ok, Database.getAtIndex_of_strip (MaskImpl.root.inj strip)⟩
    rw [Ledger.innerHash, run]
    rfl
  | attached own parent | unattached own => cases strip

theorem Local.childHashesGet (h : Local V view m) (clean : a.Clean) (short : a.length < LEDGER_DEPTH) :
    ∃ m', Ledger.childHashesGet V a m =
      .ok ((hashAtAddr V view a.childLeft, hashAtAddr V view a.childRight), m') ∧ Local V view m' := by
  have bits : a.length < nbits := short.trans (by decide)
  obtain ⟨m₁, left, h₁⟩ := h.innerHash (toIndex_childLeft bits clean).2 short
  obtain ⟨m₂, right, h₂⟩ := h₁.innerHash (toIndex_childRight bits clean).2 short
  refine ⟨m₂, ?_, h₂⟩
  rw [Ledger.childHashesGet, left, ok_bind]
  dsimp only
  rw [right]
  rfl

theorem Local.set (h : Local V view m) (leaf : a.length = LEDGER_DEPTH) (account : A) :
    Local V (Function.update view a.toIndex (some account)) (m.set V a account) := by
  obtain ⟨db, rfl, sound, rfl⟩ := h
  refine ⟨_, rfl, sound.set (by decide) leaf account, funext fun i => ?_⟩
  rw [Database.getAtIndex_set, update_apply]

theorem Local.depth (h : Local V view m) : m.depth = LEDGER_DEPTH := by
  obtain ⟨db, rfl, sound, -⟩ := h
  exact sound.depth

/-- The accounts after a write of `accounts` to the leaves from `start` on. -/
def written (view : ℕ → Option A) (start : ℕ) (accounts : List A) (j : ℕ) : Option A :=
  if start ≤ j ∧ j < start + accounts.length then accounts[j - start]? else view j

theorem written_cons (start : ℕ) (account : A) (accounts : List A) :
    written (Function.update view start (some account)) (start + 1) accounts =
      written view start (account :: accounts) := by
  funext j
  unfold written
  rw [length_cons]
  rcases lt_trichotomy j start with before | rfl | after
  · rw [if_neg (by omega), if_neg (by omega), update_of_ne (by omega)]
  · simp
  · have next : j - start = (j - (start + 1)) + 1 := by omega
    rw [update_of_ne (by omega), next, getElem?_cons_succ]
    by_cases inside : j < start + 1 + accounts.length
    · rw [if_pos ⟨by omega, inside⟩, if_pos ⟨by omega, by omega⟩]
    · rw [if_neg (by omega), if_neg (by omega)]

theorem leafBelow_toIndex (short : a.length ≤ LEDGER_DEPTH) {i : ℕ} (inside : i < 2 ^ (LEDGER_DEPTH - a.length)) :
    (leafBelow a LEDGER_DEPTH i).toIndex = a.toIndex * 2 ^ (LEDGER_DEPTH - a.length) + i := by
  refine toIndex_fromIndex ?_ (by decide)
  have index : a.toIndex < 2 ^ a.length := toIndex_lt (short.trans (by decide))
  calc a.toIndex * 2 ^ (LEDGER_DEPTH - a.length) + i
      < (a.toIndex + 1) * 2 ^ (LEDGER_DEPTH - a.length) := by rw [Nat.add_mul]; omega
    _ ≤ 2 ^ a.length * 2 ^ (LEDGER_DEPTH - a.length) := Nat.mul_le_mul_right _ index
    _ = 2 ^ LEDGER_DEPTH := by rw [← pow_add, Nat.add_sub_cancel' short]

theorem Local.setFrom (short : a.length ≤ LEDGER_DEPTH) : ∀ (accounts : List A) (i : ℕ)
    {view : ℕ → Option A} {m : MaskImpl A I F}, Local V view m →
    i + accounts.length ≤ 2 ^ (LEDGER_DEPTH - a.length) →
    Local V (written view (a.toIndex * 2 ^ (LEDGER_DEPTH - a.length) + i) accounts)
      (Ledger.setFrom V a i accounts m)
  | [], i, view, m, h, _ => by
    have same : written view (a.toIndex * 2 ^ (LEDGER_DEPTH - a.length) + i) [] = view := by
      funext j
      unfold written
      rw [length_nil, if_neg (by omega)]
    rw [same]
    exact h
  | account :: accounts, i, view, m, h, room => by
    rw [length_cons] at room
    have set := h.set (a := leafBelow a LEDGER_DEPTH i) rfl account
    rw [leafBelow_toIndex short (by omega)] at set
    have rest := Local.setFrom short accounts (i + 1) set (by omega)
    rw [← Nat.add_assoc, written_cons] at rest
    rw [Ledger.setFrom, h.depth]
    exact rest

theorem mapM_map_some : ∀ accounts : List A, (accounts.map some).mapM id = some accounts
  | [] => rfl
  | account :: accounts => by
    rw [map_cons, mapM_cons, mapM_map_some accounts]
    rfl

variable {encoded : List (Option A)}

/-- **A write of accounts**: the leaves below `a` get the accounts in order, as many as there
    are leaves. -/
theorem Local.accountsSet (h : Local V view m) (clean : a.Clean) (short : a.length ≤ LEDGER_DEPTH)
    {accounts : List A} (decoded : encoded.mapM id = some accounts) :
    ∃ m', Ledger.accountsSet V a encoded m =
        .ok (hashAtAddr V (written view (a.toIndex * 2 ^ (LEDGER_DEPTH - a.length))
          (accounts.take (2 ^ (LEDGER_DEPTH - a.length)))) a, m') ∧
      Local V (written view (a.toIndex * 2 ^ (LEDGER_DEPTH - a.length))
        (accounts.take (2 ^ (LEDGER_DEPTH - a.length)))) m' := by
  have set := Local.setFrom short (accounts.take (2 ^ (LEDGER_DEPTH - a.length))) 0 h (by
    rw [length_take]
    omega)
  rw [Nat.add_zero] at set
  obtain ⟨m', run, h'⟩ := set.innerHash clean short
  refine ⟨m', ?_, h'⟩
  have placed : setAllAccountsRootedAt V a accounts m =
      some (Ledger.setFrom V a 0 (accounts.take (2 ^ (LEDGER_DEPTH - a.length))) m) := by
    rw [setAllAccountsRootedAt, h.depth, if_neg (by omega)]
  rw [Ledger.accountsSet, decoded]
  show (okOr SyncPanic.service (setAllAccountsRootedAt V a accounts m) >>= Ledger.innerHash V a) = _
  rw [placed]
  exact run

theorem Local.accountsSet_ok (h : Local V view m) (clean : a.Clean) (short : a.length ≤ LEDGER_DEPTH) {hash : F}
    {m' : MaskImpl A I F} (run : Ledger.accountsSet V a encoded m = .ok (hash, m')) :
    ∃ view', Local V view' m' ∧ hash = hashAtAddr V view' a ∧ ∀ j, ¬ Below a j → view' j = view j := by
  obtain ⟨accounts, decoded, -⟩ := bind_eq_ok.1 run
  obtain ⟨m'', run', h'⟩ := h.accountsSet clean short (okOr_eq_ok.1 decoded)
  cases run.symm.trans run'
  refine ⟨_, h', rfl, fun j outside => if_neg fun inside => outside ?_⟩
  rw [length_take] at inside
  have positive : 0 < 2 ^ (LEDGER_DEPTH - a.length) := Nat.two_pow_pos _
  rw [Below, Nat.div_eq_iff positive]
  omega

theorem Local.innerHash_ok (h : Local V view m) (clean : a.Clean) (short : a.length ≤ LEDGER_DEPTH)
    {hash : F} {m' : MaskImpl A I F} (run : Ledger.innerHash V a m = .ok (hash, m')) :
    hash = hashAtAddr V view a ∧ Local V view m' := by
  obtain ⟨m'', run', h'⟩ := h.innerHash clean short
  cases run.symm.trans run'
  exact ⟨rfl, h'⟩

/-! ## What a node answers -/

theorem treeHeight_spec {n : ℕ} (fits : n ≤ 2 ^ LEDGER_DEPTH) :
    ∃ height, treeHeightForNumAccounts n = .ok height ∧ height ≤ LEDGER_DEPTH ∧ n ≤ 2 ^ height := by
  unfold treeHeightForNumAccounts
  split
  · exact ⟨1, rfl, by decide, by omega⟩
  · split
    · next power =>
      refine ⟨_, rfl, ?_, power.ge⟩
      rw [← power] at fits
      exact (Nat.pow_le_pow_iff_right (by decide)).1 fits
    · rw [if_pos (fits.trans (by decide)), Nat.log_pow (by decide)]
      exact ⟨_, rfl, Nat.clog_le_of_le_pow fits, Nat.le_pow_clog (by decide) n⟩

@[simp] theorem toIndex_first (length : ℕ) : (Address.first length).toIndex = 0 := by
  rw [toIndex_eq]
  exact Nat.zero_div _

theorem hashAtAddr_first (fits : height ≤ LEDGER_DEPTH) :
    hashAtAddr V view (.first (LEDGER_DEPTH - height)) = V.nodeHash view height 0 := by
  have length : LEDGER_DEPTH - (Address.first (LEDGER_DEPTH - height)).length = height := Nat.sub_sub_self fits
  rw [hashAtAddr, length, toIndex_first]

/-- A ledger that answers queries has no empty position before its last account. -/
structure Served (V : TreeVersion A I F) (m : MaskImpl A I F) : Prop where
  answers : m.Answers V LEDGER_DEPTH m.lastAccount
  filled : ∀ j < m.numAccounts, m.view j ≠ none

theorem view_eq_none (ok : m.Answers V LEDGER_DEPTH m.lastAccount) {j : ℕ} (after : m.numAccounts ≤ j) :
    m.view j = none := by
  by_contra present
  obtain ⟨l, last, le⟩ := ok.lastFilled.2 j present
  rw [numAccounts, last] at after
  exact absurd le (not_le.2 after)

theorem numAccounts_le (ok : m.Answers V LEDGER_DEPTH m.lastAccount) : m.numAccounts ≤ 2 ^ LEDGER_DEPTH := by
  unfold numAccounts
  cases last : m.lastFilled with
  | none => exact Nat.zero_le _
  | some l =>
    have leaf := ok.lastFilled.1 l last
    have bound : l.toIndex < 2 ^ l.length := toIndex_lt (by rw [leaf]; decide)
    rw [leaf] at bound
    exact bound

theorem MaskImpl.lastFilled_strip : ∀ m : MaskImpl A I F, m.strip.lastFilled = m.lastFilled
  | root _ => rfl
  | attached own parent => by
    rw [strip, lastFilled, lastFilled_strip parent]
    rfl
  | unattached _ => rfl

theorem depth_strip (m : MaskImpl A I F) : m.strip.depth = m.depth := by
  cases m <;> rfl

theorem lastAccount_of_strip {m₀ : MaskImpl A I F} (h : m.strip = m₀.strip) :
    m.lastAccount = m₀.lastAccount := by
  rw [lastAccount, lastAccount, ← lastFilled_strip m, ← depth_strip m, h, lastFilled_strip, depth_strip]

section
variable (ok : m.Answers V LEDGER_DEPTH m.lastAccount)
include ok

theorem getHash_spec (clean : a.Clean) (short : a.length ≤ LEDGER_DEPTH) :
    ∃ m', getHash V a m = .ok (some (hashAtAddr V m.view a), m') ∧
      m'.Answers V LEDGER_DEPTH m'.lastAccount ∧ m'.view = m.view := by
  obtain ⟨r, m', run, ⟨ok', strip⟩, result⟩ := getInnerHashAtAddr_spec (by decide) (by decide) clean ok
  rw [result short] at run
  refine ⟨m', ?_, ?_, view_of_strip strip⟩
  · rw [getHash, run]
    rfl
  · rw [lastAccount_of_strip strip]
    exact ok'

theorem getNumAccounts_spec (fits : height ≤ LEDGER_DEPTH)
    (tall : treeHeightForNumAccounts m.numAccounts = .ok height) :
    ∃ m', getNumAccounts V m = .ok (some (m.numAccounts, V.nodeHash m.view height 0), m') := by
  obtain ⟨m', run, -⟩ := getHash_spec ok (a := .first (LEDGER_DEPTH - height)) (Nat.zero_mod _) (Nat.sub_le ..)
  rw [hashAtAddr_first fits] at run
  refine ⟨m', ?_⟩
  rw [getNumAccounts, tall, ok_bind, run]
  rfl

theorem getHashOrEmpty_spec (clean : a.Clean)
    (short : a.length ≤ LEDGER_DEPTH) :
    ∃ m', getHashOrEmpty V a m = .ok (hashAtAddr V m.view a, m') ∧
      m'.Answers V LEDGER_DEPTH m'.lastAccount ∧ m'.view = m.view := by
  obtain ⟨m', run, rest⟩ := getHash_spec ok clean short
  refine ⟨m', ?_, rest⟩
  rw [getHashOrEmpty, run]
  rfl

theorem getChildHashes_spec (clean : a.Clean)
    (short : a.length < LEDGER_DEPTH) :
    ∃ m', getChildHashes V a m = .ok ((hashAtAddr V m.view a.childLeft, hashAtAddr V m.view a.childRight), m') := by
  have bits : a.length < nbits := short.trans (by decide)
  obtain ⟨m₁, left, ok₁, same⟩ := getHashOrEmpty_spec ok (toIndex_childLeft bits clean).2 short
  obtain ⟨m₂, right, -, -⟩ := getHashOrEmpty_spec ok₁ (toIndex_childRight bits clean).2 short
  refine ⟨m₂, ?_⟩
  rw [getChildHashes, left, ok_bind]
  dsimp only
  rw [right, same]
  rfl

end

theorem filterMap_range_of_isSome {α : Type} {f : ℕ → Option α} : ∀ {k : ℕ}, (∀ i < k, f i ≠ none) →
    ((List.range k).filterMap f).length = k ∧ ∀ i < k, ((List.range k).filterMap f)[i]? = f i
  | 0, _ => ⟨rfl, nofun⟩
  | k + 1, all => by
    obtain ⟨length, entries⟩ := filterMap_range_of_isSome fun i lt => all i (Nat.lt_succ_of_lt lt)
    obtain ⟨x, last⟩ := Option.ne_none_iff_exists'.1 (all k (Nat.lt_succ_self k))
    have concat : (List.range (k + 1)).filterMap f = (List.range k).filterMap f ++ [x] := by
      rw [range_succ, filterMap_append, filterMap_cons_some last]
      rfl
    rw [concat]
    refine ⟨by rw [length_append, length]; rfl, fun i lt => ?_⟩
    rcases Nat.lt_succ_iff_lt_or_eq.1 lt with before | rfl
    · rw [getElem?_append_left (by omega), entries i before]
    · rw [getElem?_append_right (by omega), length, Nat.sub_self, last]
      rfl

theorem getElem?_filterMap_range {α : Type} {f : ℕ → Option α} {k n : ℕ} (before : ∀ i < k, f i ≠ none)
    (after : ∀ i, k ≤ i → f i = none) (le : k ≤ n) :
    ((List.range n).filterMap f).length = k ∧ ∀ i, ((List.range n).filterMap f)[i]? = f i := by
  have front : (List.range n).filterMap f = (List.range k).filterMap f := by
    obtain ⟨rest, rfl⟩ := Nat.exists_eq_add_of_le le
    have back : ((List.range rest).map (k + ·)).filterMap f = [] := by
      rw [filterMap_map, filterMap_eq_nil_iff]
      exact fun i _ => after (k + i) (Nat.le_add_right k i)
    rw [range_add, filterMap_append, back, append_nil]
  obtain ⟨length, entries⟩ := filterMap_range_of_isSome before
  rw [front]
  refine ⟨length, fun i => ?_⟩
  rcases lt_or_ge i k with lt | ge
  · exact entries i lt
  · rw [getElem?_eq_none (length.trans_le ge), after i ge]

theorem getChildAccounts_spec (h : Served V m) (short : a.length ≤ LEDGER_DEPTH)
    (inside : a.toIndex * 2 ^ (LEDGER_DEPTH - a.length) < m.numAccounts) :
    ∃ accounts, getChildAccounts a m = some accounts ∧ 0 < accounts.length ∧
      accounts.length ≤ 2 ^ (LEDGER_DEPTH - a.length) ∧
      ∀ i < 2 ^ (LEDGER_DEPTH - a.length), accounts[i]? = m.view (a.toIndex * 2 ^ (LEDGER_DEPTH - a.length) + i) := by
  set size := 2 ^ (LEDGER_DEPTH - a.length) with hsize
  set first := a.toIndex * size with hfirst
  -- past the leaves below `a` the sequence is cut off
  let f : ℕ → Option A := fun i => if i < size then m.view (first + i) else none
  have leaves : (List.range size).filterMap (fun i => m.get (leafBelow a LEDGER_DEPTH i)) =
      (List.range size).filterMap f := by
    refine filterMap_congr fun i mem => ?_
    rw [get_eq, leafBelow_toIndex short (mem_range.1 mem)]
    exact (if_pos (mem_range.1 mem)).symm
  have positive : 0 < size := Nat.two_pow_pos _
  obtain ⟨length, entries⟩ := getElem?_filterMap_range (f := f) (k := min size (m.numAccounts - first))
    (fun i lt => by
      have here : f i = m.view (first + i) := if_pos (by omega)
      rw [here]
      exact h.filled _ (by omega))
    (fun i ge => by
      by_cases lt : i < size
      · exact (if_pos lt).trans (view_eq_none h.answers (by omega))
      · exact if_neg lt)
    (min_le_left ..)
  refine ⟨(List.range size).filterMap f, ?_, by omega, by omega, fun i lt => (entries i).trans (if_pos lt)⟩
  have some : ((List.range size).filterMap f).isEmpty = false := by
    rw [isEmpty_eq_false_iff, ← length_pos_iff]
    omega
  rw [getChildAccounts, h.answers.depth, if_neg (by omega), leaves]
  rw [if_neg (by rw [some]; decide)]

theorem written_below (h : Served V m) {accounts : List A}
    (entries : ∀ i < 2 ^ (LEDGER_DEPTH - a.length), accounts[i]? = m.view (a.toIndex * 2 ^ (LEDGER_DEPTH - a.length) + i))
    (fewer : ∀ j, m.numAccounts ≤ j → view j = none) {j : ℕ} (below : Below a j) :
    written view (a.toIndex * 2 ^ (LEDGER_DEPTH - a.length)) accounts j = m.view j := by
  have positive : 0 < 2 ^ (LEDGER_DEPTH - a.length) := Nat.two_pow_pos _
  rw [Below, Nat.div_eq_iff positive] at below
  obtain ⟨i, rfl⟩ := Nat.exists_eq_add_of_le below.1
  have entry := entries i (by omega)
  unfold written
  rw [← entry]
  split
  · rw [Nat.add_sub_cancel_left]
  · have gone : accounts[i]? = none := List.getElem?_eq_none (by omega)
    rw [gone]
    refine fewer _ (not_lt.1 fun lt => h.filled _ lt ?_)
    rw [← entry, gone]

end MinaRust.Ledger
