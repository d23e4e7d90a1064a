/-
  The table of verification keys that the pool's commands refer to
  (`VkRefcountTable` of `transaction_pool.rs`).

  The table counts the pairs (account, key hash) counted up and not yet down in three ways.
  `dec` drops the whole inner map of an account (and of a key) as soon as one of its counts
  reaches zero.
-/
import Mathlib.Data.Multiset.AddSub
import Mathlib.Data.Multiset.Count
import MinaRust.Lib.HashMap
import MinaRust.TransactionPool.Command

namespace MinaRust.TransactionPool

open List Option AList

/-! ## Maps of counts -/

section
variable {K K₁ K₂ : Type} [DecidableEq K] [DecidableEq K₁] [DecidableEq K₂]

variable (t : HashMap K₁ (HashMap K₂ ℕ)) (f : K₁ → K₂ → ℕ) (k₁ : K₁) (k₂ : K₂) (n : ℕ)

def stored : Option ℕ := if n = 0 then none else some n

theorem stored_getD : (stored n).getD 0 = n := by
  unfold stored
  split <;> simp [*]

theorem stored_eq_none {n : ℕ} : stored n = none ↔ n = 0 := by simp [stored]

theorem stored_of_pos {n : ℕ} (h : 0 < n) : stored n = some n := if_neg h.ne'

def bump (k : K) (m : HashMap K ℕ) : HashMap K ℕ := m.insert k ((m.lookup k).getD 0 + 1)

theorem lookup_bump {m : HashMap K ℕ} {f : K → ℕ} (hm : ∀ k, m.lookup k = stored (f k)) (k k' : K) :
    (bump k m).lookup k' = stored (if k' = k then f k + 1 else f k') := by
  unfold bump
  split
  · next h => rw [h, lookup_insert, hm, stored_getD, stored_of_pos (Nat.succ_pos _)]
  · next h => rw [lookup_insert_ne h, hm]

def count₂ : Option ℕ :=
  ((t.lookup k₁).getD ∅).lookup k₂

def Stores : Prop :=
  ∀ k₁ k₂, count₂ t k₁ k₂ = stored (f k₁ k₂)

/-- `entry(k₁).or_default()`, then `entry(k₂).or_default()` and `*count += 1`. -/
def add (t : HashMap K₁ (HashMap K₂ ℕ)) : HashMap K₁ (HashMap K₂ ℕ) :=
  t.insert k₁ (bump k₂ ((t.lookup k₁).getD ∅))

inductive RemoveError where
  | vacantOnKey1
  | vacantOnKey2
  | invalidCountState
  deriving DecidableEq, Repr

/-- `remove` of `dec`; a failing call leaves the table as it was. -/
def remove (k₁ : K₁) (k₂ : K₂) (t : HashMap K₁ (HashMap K₂ ℕ)) :
    Except RemoveError (HashMap K₁ (HashMap K₂ ℕ)) :=
  match t.lookup k₁ with
  | none => .error .vacantOnKey1
  | some map =>
    match map.lookup k₂ with
    | none => .error .vacantOnKey2
    | some count =>
      -- `e2.remove(); e.remove();`: the inner entry, then the whole inner map
      if count = 1 then .ok (t.erase k₁)
      else do
        let count ← checkedSub .invalidCountState count 1
        return t.insert k₁ (map.insert k₂ count)

variable (a : K₁)

def recount (b : K₂) : ℕ :=
  if a = k₁ ∧ b = k₂ then n else f a b

@[simp] theorem recount_self : recount f k₁ k₂ n k₁ k₂ = n := if_pos ⟨rfl, rfl⟩

theorem recount_of_ne_left {k₁ a : K₁} (h : a ≠ k₁) (k₂ : K₂) (n : ℕ) (b : K₂) :
    recount f k₁ k₂ n a b = f a b := if_neg fun e => h e.1

theorem recount_of_ne_right {k₂ b : K₂} (h : b ≠ k₂) (n : ℕ) :
    recount f k₁ k₂ n a b = f a b := if_neg fun e => h e.2

theorem Stores.add {t : HashMap K₁ (HashMap K₂ ℕ)} {f : K₁ → K₂ → ℕ} (h : Stores t f)
    (k₁ : K₁) (k₂ : K₂) : Stores (add k₁ k₂ t) (recount f k₁ k₂ (f k₁ k₂ + 1)) := by
  intro a b
  unfold TransactionPool.add count₂
  by_cases ha : a = k₁
  · subst ha
    rw [lookup_insert, getD_some, lookup_bump (h a)]
    simp [recount]
  · rw [lookup_insert_ne ha, recount_of_ne_left f ha]
    exact h a b

/-- Keeps the counts unless it was the last one of the pair while `k₁` still had references with
    another `k₂`. -/
theorem Stores.remove {t : HashMap K₁ (HashMap K₂ ℕ)} {f : K₁ → K₂ → ℕ} (h : Stores t f)
    {k₁ : K₁} {k₂ : K₂} (pos : 0 < f k₁ k₂) :
    ∃ t', remove k₁ k₂ t = .ok t' ∧ (Stores t' (recount f k₁ k₂ (f k₁ k₂ - 1)) ↔
      (f k₁ k₂ = 1 → ∀ b, b ≠ k₂ → f k₁ b = 0)) := by
  have hcount := h k₁ k₂
  rw [stored_of_pos pos, count₂] at hcount
  -- a stored count is found through an inner map that is there
  obtain ⟨map, hmap⟩ : ∃ map, t.lookup k₁ = some map := by
    cases hl : t.lookup k₁ with
    | none => rw [hl] at hcount; simp at hcount
    | some map => exact ⟨map, rfl⟩
  rw [hmap, getD_some] at hcount
  have inner : ∀ b, map.lookup b = stored (f k₁ b) := by
    intro b
    rw [← h k₁ b, count₂, hmap, getD_some]
  unfold TransactionPool.remove
  simp only [hmap, hcount]
  by_cases one : f k₁ k₂ = 1
  · refine ⟨_, if_pos one, fun hs _ b hb => ?_, fun clean a b => ?_⟩
    · have gone := hs k₁ b
      rw [count₂, lookup_erase, recount_of_ne_right f k₁ k₁ hb] at gone
      exact stored_eq_none.1 gone.symm
    · by_cases ha : a = k₁
      · subst ha
        rw [count₂, lookup_erase]
        by_cases hb : b = k₂
        · simp [hb, one, stored]
        · simp [recount_of_ne_right f a a hb, clean one b hb, stored]
      · rw [count₂, lookup_erase_ne ha, recount_of_ne_left f ha]
        exact h a b
  · rw [if_neg one, checkedSub_of_le (by omega)]
    refine ⟨_, rfl, fun _ h1 => absurd h1 one, fun _ a b => ?_⟩
    by_cases ha : a = k₁
    · subst ha
      rw [count₂, lookup_insert, getD_some]
      by_cases hb : b = k₂
      · subst hb
        rw [lookup_insert, recount_self, stored_of_pos (by omega)]
      · rw [lookup_insert_ne hb, recount_of_ne_right f a a hb, inner]
    · rw [count₂, lookup_insert_ne ha, recount_of_ne_left f ha]
      exact h a b

end

/-! ## The table -/

section
variable {A Fp Vk : Type} [DecidableEq A] [DecidableEq Fp]

structure VkRefcountTable (A Fp Vk : Type) where
  verificationKeys : HashMap Fp (ℕ × Vk)
  accountIdToVks : HashMap A (HashMap Fp ℕ)
  vkToAccountIds : HashMap Fp (HashMap A ℕ)

inductive BugCondition where
  /-- "vk_map: Unexpected error on self.verification_keys: vacant vk_hash" -/
  | verificationKeys
  /-- "vk_map: Unexpected error on self.account_id_to_vks" -/
  | accountIdToVks (e : RemoveError)
  /-- "vk_map: Unexpected error on self.vk_to_account_ids" -/
  | vkToAccountIds (e : RemoveError)
  deriving DecidableEq, Repr

namespace VkRefcountTable

def empty : VkRefcountTable A Fp Vk := ⟨∅, ∅, ∅⟩

def findVk (t : VkRefcountTable A Fp Vk) (f : Fp) : Option (ℕ × Vk) :=
  t.verificationKeys.lookup f

def findVksByAccountId (t : VkRefcountTable A Fp Vk) (accountId : A) : Except Panic (List Vk) :=
  match t.accountIdToVks.lookup accountId with
  | none => .ok []
  | some vks => vks.keys.mapM fun f =>
    match t.findVk f with
    | none => .error .malformedVkRefcountTable
    | some (_, vk) => .ok vk

def incKeys (hash : Vk → Fp) (vk : Vk) (keys : HashMap Fp (ℕ × Vk)) : HashMap Fp (ℕ × Vk) :=
  match keys.lookup (hash vk) with
  | none => keys.insert (hash vk) (1, vk)
  | some (count, old) => keys.insert (hash vk) (count + 1, old)

def inc (hash : Vk → Fp) (accountId : A) (vk : Vk) (t : VkRefcountTable A Fp Vk) :
    VkRefcountTable A Fp Vk where
  verificationKeys := incKeys hash vk t.verificationKeys
  accountIdToVks := add accountId (hash vk) t.accountIdToVks
  vkToAccountIds := add (hash vk) accountId t.vkToAccountIds

def decKeys (vkHash : Fp) (keys : HashMap Fp (ℕ × Vk)) :
    Except Panic (HashMap Fp (ℕ × Vk) × List BugCondition) :=
  match keys.lookup vkHash with
  | none => .ok (keys, [.verificationKeys])
  | some (count, vk) =>
    if count = 1 then .ok (keys.erase vkHash, [])
    else do
      let count ← checkedSub .unwrapNone count 1
      return (keys.insert vkHash (count, vk), [])

def report {α : Type} (bug : RemoveError → BugCondition) (old : α) :
    Except RemoveError α → α × List BugCondition
  | .ok new => (new, [])
  | .error e => (old, [bug e])

def dec (accountId : A) (vkHash : Fp) (t : VkRefcountTable A Fp Vk) :
    Except Panic (VkRefcountTable A Fp Vk × List BugCondition) := do
  let (verificationKeys, bugs) ← decKeys vkHash t.verificationKeys
  let (accountIdToVks, bugs₁) :=
    report .accountIdToVks t.accountIdToVks (remove accountId vkHash t.accountIdToVks)
  let (vkToAccountIds, bugs₂) :=
    report .vkToAccountIds t.vkToAccountIds (remove vkHash accountId t.vkToAccountIds)
  return (⟨verificationKeys, accountIdToVks, vkToAccountIds⟩, bugs ++ bugs₁ ++ bugs₂)

end VkRefcountTable

/-! ## Calls and the references outstanding after them -/

inductive Call (A Fp Vk : Type) where
  | inc (accountId : A) (vk : Vk)
  | dec (accountId : A) (vkHash : Fp)

def Call.after (hash : Vk → Fp) (M : Multiset (A × Fp)) : Call A Fp Vk → Multiset (A × Fp)
  | .inc a vk => (a, hash vk) ::ₘ M
  | .dec a h => M.erase (a, h)

def outstanding (hash : Vk → Fp) (calls : List (Call A Fp Vk)) : Multiset (A × Fp) :=
  calls.foldl (Call.after hash) 0

/-- A `dec` undoes an `inc` that is still outstanding. -/
def Call.Matched (M : Multiset (A × Fp)) : Call A Fp Vk → Prop
  | .inc _ _ => True
  | .dec a h => (a, h) ∈ M

/-- The last reference of a pair is given up only with no other reference to the account and to
    the key. -/
def Call.Clean (M : Multiset (A × Fp)) : Call A Fp Vk → Prop
  | .inc _ _ => True
  | .dec a h => M.count (a, h) = 1 → (∀ h', h' ≠ h → (a, h') ∉ M) ∧ (∀ a', a' ≠ a → (a', h) ∉ M)

def VkRefcountTable.call (hash : Vk → Fp) (s : VkRefcountTable A Fp Vk × List BugCondition) :
    Call A Fp Vk → Except Panic (VkRefcountTable A Fp Vk × List BugCondition)
  | .inc a vk => .ok (s.1.inc hash a vk, s.2)
  | .dec a h => do
    let (t, bugs) ← s.1.dec a h
    return (t, s.2 ++ bugs)

/-- The calls `toCall` of the keys that the commands set, command by command. -/
def VkRefcountTable.forCommands {Cmd : Type} (hash : Vk → Fp) (extractVks : Cmd → List (A × Vk))
    (toCall : A × Vk → Call A Fp Vk) (list : List Cmd) (s : VkRefcountTable A Fp Vk × List BugCondition) :
    Except Panic (VkRefcountTable A Fp Vk × List BugCondition) :=
  list.foldlM (fun s c =>
    (extractVks c).foldlM (fun s p => VkRefcountTable.call hash s (toCall p)) s) s

def VkRefcountTable.incrementHashed {Cmd : Type} (hash : Vk → Fp) (extractVks : Cmd → List (A × Vk)) :
    List Cmd → VkRefcountTable A Fp Vk × List BugCondition →
      Except Panic (VkRefcountTable A Fp Vk × List BugCondition) :=
  forCommands hash extractVks fun (id, vk) => .inc id vk

def VkRefcountTable.decrementHashed {Cmd : Type} (hash : Vk → Fp) (extractVks : Cmd → List (A × Vk)) :
    List Cmd → VkRefcountTable A Fp Vk × List BugCondition →
      Except Panic (VkRefcountTable A Fp Vk × List BugCondition) :=
  forCommands hash extractVks fun (id, vk) => .dec id (hash vk)

def VkRefcountTable.run (hash : Vk → Fp) (calls : List (Call A Fp Vk)) :
    Except Panic (VkRefcountTable A Fp Vk × List BugCondition) :=
  calls.foldlM (VkRefcountTable.call hash) (.empty, [])

/-! ## Consistency -/

def keyCount (M : Multiset (A × Fp)) (h : Fp) : ℕ := M.countP fun p => p.2 = h

/-- **The three tables count the outstanding pairs.** -/
structure Consistent (hash : Vk → Fp) (t : VkRefcountTable A Fp Vk)
    (M : Multiset (A × Fp)) : Prop where
  keys : ∀ h, (t.verificationKeys.lookup h).map Prod.fst = stored (keyCount M h)
  hashes : ∀ h count vk, t.verificationKeys.lookup h = some (count, vk) → hash vk = h
  accounts : Stores t.accountIdToVks fun a h => M.count (a, h)
  vks : Stores t.vkToAccountIds fun h a => M.count (a, h)

/-- `find_vks_by_account_id` returns, for each key the account refers to, one
    verification key with that hash, and no other. -/
def FindsVks (hash : Vk → Fp) (t : VkRefcountTable A Fp Vk) (M : Multiset (A × Fp)) : Prop :=
  ∀ a, ∃ vks, t.findVksByAccountId a = .ok vks ∧ (vks.map hash).Nodup ∧ ∀ h, h ∈ vks.map hash ↔ (a, h) ∈ M

variable {hash : Vk → Fp} {t : VkRefcountTable A Fp Vk} {M : Multiset (A × Fp)}

omit [DecidableEq A] in
theorem keyCount_cons (a : A) (h : Fp) (M : Multiset (A × Fp)) (h' : Fp) :
    keyCount ((a, h) ::ₘ M) h' = if h' = h then keyCount M h + 1 else keyCount M h' := by
  unfold keyCount
  by_cases e : h' = h
  · simp [e]
  · simp [e, Ne.symm e]

variable {h : Fp} {a : A}

theorem keyCount_erase (mem : (a, h) ∈ M) (h' : Fp) :
    keyCount (M.erase (a, h)) h' = if h' = h then keyCount M h - 1 else keyCount M h' := by
  have split := fun h' => keyCount_cons a h (M.erase (a, h)) h'
  rw [Multiset.cons_erase mem] at split
  by_cases e : h' = h
  · rw [if_pos e, e, split h, if_pos rfl]
    rfl
  · rw [if_neg e, split h', if_neg e]

omit [DecidableEq A] in
theorem keyCount_pos (mem : (a, h) ∈ M) : 0 < keyCount M h :=
  Multiset.countP_pos.2 ⟨_, mem, rfl⟩

theorem count_cons_eq_recount (M : Multiset (A × Fp)) (a : A) (h : Fp) :
    (fun a' h' => ((a, h) ::ₘ M).count (a', h')) =
      recount (fun a' h' => M.count (a', h')) a h (M.count (a, h) + 1) := by
  funext a' h'
  unfold recount
  split
  · next e => rw [e.1, e.2, Multiset.count_cons_self]
  · next e => rw [Multiset.count_cons_of_ne fun eq => e (Prod.mk.injEq .. ▸ eq)]

theorem count_erase_eq_recount (M : Multiset (A × Fp)) (a : A) (h : Fp) :
    (fun a' h' => (M.erase (a, h)).count (a', h')) =
      recount (fun a' h' => M.count (a', h')) a h (M.count (a, h) - 1) := by
  funext a' h'
  unfold recount
  split
  · next e => rw [e.1, e.2, Multiset.count_erase_self]
  · next e => rw [Multiset.count_erase_of_ne fun eq => e (Prod.mk.injEq .. ▸ eq)]

theorem recount_swap {f g : A → Fp → ℕ} {n : ℕ} (e : g = recount f a h n) :
    (fun h' a' => g a' h') = recount (fun h' a' => f a' h') h a n := by
  funext h' a'
  rw [e, recount, recount]
  simp only [and_comm]

theorem Consistent.empty : Consistent hash (VkRefcountTable.empty : VkRefcountTable A Fp Vk) 0 where
  keys _ := rfl
  hashes _ _ _ h := nomatch h
  accounts _ _ := rfl
  vks _ _ := rfl

theorem lookup_incKeys (vk : Vk) (keys : HashMap Fp (ℕ × Vk)) (h : Fp) :
    (VkRefcountTable.incKeys hash vk keys).lookup h =
      if h = hash vk then some (((keys.lookup h).map Prod.fst).getD 0 + 1,
        ((keys.lookup h).map Prod.snd).getD vk)
      else keys.lookup h := by
  unfold VkRefcountTable.incKeys
  by_cases e : h = hash vk
  · subst e
    cases keys.lookup (hash vk) <;> simp
  · cases keys.lookup (hash vk) <;> simp [e]

theorem Consistent.inc (c : Consistent hash t M) (a : A) (vk : Vk) :
    Consistent hash (t.inc hash a vk) ((a, hash vk) ::ₘ M) where
  keys h := by
    rw [VkRefcountTable.inc, lookup_incKeys, keyCount_cons]
    split
    · next e =>
      rw [map_some, c.keys, stored_getD, stored_of_pos (Nat.succ_pos _), e]
    · exact c.keys h
  hashes h count vk' found := by
    rw [VkRefcountTable.inc, lookup_incKeys] at found
    split at found
    · next e =>
      cases hl : t.verificationKeys.lookup h with
      | none =>
        simp only [hl, some.injEq, Prod.mk.injEq] at found
        exact found.2 ▸ e.symm
      | some old =>
        simp only [hl, some.injEq, Prod.mk.injEq] at found
        exact found.2 ▸ c.hashes h old.1 old.2 hl
    · exact c.hashes h count vk' found
  accounts := by
    rw [count_cons_eq_recount]
    exact c.accounts.add a (hash vk)
  vks := by
    rw [recount_swap (count_cons_eq_recount M a (hash vk))]
    exact c.vks.add (hash vk) a

theorem Consistent.decKeys (c : Consistent hash t M) (mem : (a, h) ∈ M) :
    ∃ keys, VkRefcountTable.decKeys h t.verificationKeys = .ok (keys, []) ∧
      (∀ h', (keys.lookup h').map Prod.fst = stored (keyCount (M.erase (a, h)) h')) ∧
      ∀ h' count vk, keys.lookup h' = some (count, vk) → hash vk = h' := by
  have pos := keyCount_pos mem
  have found := c.keys h
  rw [stored_of_pos pos] at found
  obtain ⟨⟨count, vk⟩, hl, rfl⟩ := map_eq_some_iff.1 found
  unfold VkRefcountTable.decKeys
  simp only [hl]
  by_cases one : keyCount M h = 1
  · refine ⟨_, if_pos one, fun h' => ?_, fun h' count vk found => ?_⟩
    · rw [keyCount_erase mem]
      split
      · next e => rw [e, lookup_erase, one]; rfl
      · next e => rw [lookup_erase_ne e, c.keys]
    · by_cases e : h' = h
      · rw [e, lookup_erase] at found
        cases found
      · exact c.hashes h' count vk (by rwa [lookup_erase_ne e] at found)
  · rw [if_neg one, checkedSub_of_le pos]
    refine ⟨_, rfl, fun h' => ?_, fun h' count vk' found => ?_⟩
    · rw [keyCount_erase mem]
      split
      · next e => rw [e, lookup_insert, stored_of_pos (by omega)]; rfl
      · next e => rw [lookup_insert_ne e, c.keys]
    · by_cases e : h' = h
      · rw [e, lookup_insert, some.injEq, Prod.mk.injEq] at found
        exact found.2 ▸ e ▸ c.hashes h _ vk hl
      · exact c.hashes h' count vk' (by rwa [lookup_insert_ne e] at found)

/-- **Counting an outstanding pair down reports nothing, and keeps the tables
    consistent exactly when the call is clean.** -/
theorem Consistent.dec (c : Consistent hash t M) (mem : (a, h) ∈ M) : ∃ t', t.dec a h = .ok (t', []) ∧
      (Consistent hash t' (M.erase (a, h)) ↔ (Call.dec a h : Call A Fp Vk).Clean M) := by
  have pos : 0 < M.count (a, h) := Multiset.count_pos.2 mem
  obtain ⟨keys, hkeys, counts, hashes⟩ := c.decKeys mem
  obtain ⟨accounts, haccounts, accountsIff⟩ := c.accounts.remove pos
  obtain ⟨vks, hvks, vksIff⟩ := c.vks.remove pos
  rw [← count_erase_eq_recount] at accountsIff
  rw [← recount_swap (count_erase_eq_recount M a h)] at vksIff
  refine ⟨⟨keys, accounts, vks⟩, ?_, ?_⟩
  · simp only [VkRefcountTable.dec, hkeys, haccounts, hvks, VkRefcountTable.report, ok_bind, append_nil]
    rfl
  · simp only [Multiset.count_eq_zero] at accountsIff vksIff
    constructor
    · exact fun c' one => ⟨accountsIff.1 c'.accounts one, vksIff.1 c'.vks one⟩
    · exact fun clean => ⟨counts, hashes, accountsIff.2 fun one => (clean one).1,
        vksIff.2 fun one => (clean one).2⟩

theorem Consistent.finds (c : Consistent hash t M) : FindsVks hash t M := by
  intro a
  unfold VkRefcountTable.findVksByAccountId
  cases hl : t.accountIdToVks.lookup a with
  | none =>
    refine ⟨[], rfl, nodup_nil, fun h => ?_⟩
    have zero := c.accounts a h
    rw [count₂, hl] at zero
    simpa using (stored_eq_none.1 zero.symm)
  | some vks =>
    have counts : ∀ h, vks.lookup h = stored (M.count (a, h)) := by
      intro h
      rw [← c.accounts a h, count₂, hl, getD_some]
    have listed : ∀ h, h ∈ vks.keys ↔ (a, h) ∈ M := by
      intro h
      rw [← AList.mem_keys, ← not_iff_not, ← AList.lookup_eq_none, counts, stored_eq_none,
        Multiset.count_eq_zero]
    have found : ∀ h ∈ vks.keys, ∃ vk, (match t.findVk h with
        | none => .error .malformedVkRefcountTable
        | some (_, vk) => .ok vk : Except Panic Vk) = .ok vk ∧ hash vk = h := by
      intro h mem
      have key := c.keys h
      rw [stored_of_pos (keyCount_pos ((listed h).1 mem))] at key
      obtain ⟨⟨count, vk⟩, hvk, -⟩ := map_eq_some_iff.1 key
      exact ⟨vk, by rw [VkRefcountTable.findVk, hvk], c.hashes h count vk hvk⟩
    obtain ⟨ys, hys, eq⟩ := mapM_ok_of_preimage found
    exact ⟨ys, hys, eq ▸ vks.keys_nodup, fun h => eq ▸ listed h⟩

/-! ## Whole runs -/

/-- The tables are consistent, lookups return the outstanding keys, and no bug condition was
    reported. -/
def RunSound (hash : Vk → Fp) (calls : List (Call A Fp Vk)) : Prop :=
  ∃ t, VkRefcountTable.run hash calls = .ok (t, []) ∧
    Consistent hash t (outstanding hash calls) ∧ FindsVks hash t (outstanding hash calls)

variable (calls : List (Call A Fp Vk)) (call : Call A Fp Vk)

theorem outstanding_concat : outstanding hash (calls ++ [call]) = call.after hash (outstanding hash calls) := by
  rw [outstanding, foldl_append]
  rfl

theorem run_concat : VkRefcountTable.run hash (calls ++ [call]) =
      VkRefcountTable.run hash calls >>= fun s => VkRefcountTable.call hash s call := by
  rw [VkRefcountTable.run, foldlM_append]
  simp only [foldlM_cons, foldlM_nil, bind_pure]
  rfl

theorem forCommands_eq_calls {Cmd : Type} (extractVks : Cmd → List (A × Vk)) (toCall : A × Vk → Call A Fp Vk) :
    ∀ (list : List Cmd) (s : VkRefcountTable A Fp Vk × List BugCondition),
      VkRefcountTable.forCommands hash extractVks toCall list s =
        (list.flatMap fun c => (extractVks c).map toCall).foldlM (VkRefcountTable.call hash) s
  | [], _ => rfl
  | c :: list, s => by
    rw [VkRefcountTable.forCommands, flatMap_cons, foldlM_append, foldlM_map]
    exact bind_congr fun s' => forCommands_eq_calls extractVks toCall list s'

theorem RunSound.nil : RunSound hash ([] : List (Call A Fp Vk)) :=
  ⟨.empty, rfl, .empty, Consistent.empty.finds⟩

theorem RunSound.concat {calls : List (Call A Fp Vk)} {call : Call A Fp Vk}
    (sound : RunSound hash calls) (matched : call.Matched (outstanding hash calls)) :
    RunSound hash (calls ++ [call]) ↔ call.Clean (outstanding hash calls) := by
  obtain ⟨t, run, c, -⟩ := sound
  unfold RunSound
  rw [run_concat, run, outstanding_concat]
  cases call with
  | inc a vk =>
    have c' := c.inc a vk
    exact ⟨fun _ => trivial, fun _ => ⟨_, rfl, c', c'.finds⟩⟩
  | dec a h =>
    obtain ⟨t', step, iff⟩ := c.dec matched
    simp only [VkRefcountTable.call, step, ok_bind, append_nil]
    constructor
    · rintro ⟨t'', eq, c', -⟩
      cases eq
      exact iff.1 c'
    · exact fun clean => ⟨t', rfl, iff.2 clean, (iff.2 clean).finds⟩

/-- **The tables stay consistent along a run exactly when all its calls are
    clean**, for every run that counts down only outstanding pairs. -/
theorem vkRefcountTable_consistent_iff (hash : Vk → Fp) (calls : List (Call A Fp Vk))
    (matched : ∀ before call, before ++ [call] <+: calls → call.Matched (outstanding hash before)) :
    (∀ before, before <+: calls → RunSound hash before) ↔
      ∀ before call, before ++ [call] <+: calls → call.Clean (outstanding hash before) := by
  constructor
  · intro sound before call pre
    have shorter : before <+: calls := (prefix_append before [call]).trans pre
    exact ((sound before shorter).concat (matched before call pre)).1 (sound _ pre)
  · intro clean before
    -- the run grows at its end
    induction before using List.reverseRecOn with
    | nil => exact fun _ => .nil
    | append_singleton before call ih =>
      intro pre
      have shorter : before <+: calls := (prefix_append before [call]).trans pre
      exact ((ih shorter).concat (matched before call pre)).2 (clean before call pre)

/-- An account with references to two keys loses both when one of them is
    counted down: no `dec` is unmatched, `(0, 11)` is outstanding, and the lookup
    for the account finds nothing. -/
theorem vkRefcountTable_forgets_second_key :
    (∀ before call, before ++ [call] <+: ([.inc 0 10, .inc 0 11, .dec 0 10] : List (Call ℕ ℕ ℕ)) →
      call.Matched (outstanding id before)) ∧
    outstanding id ([.inc 0 10, .inc 0 11, .dec 0 10] : List (Call ℕ ℕ ℕ)) = {(0, 11)} ∧
    (∃ t, VkRefcountTable.run id ([.inc 0 10, .inc 0 11, .dec 0 10] : List (Call ℕ ℕ ℕ)) =
      .ok (t, []) ∧ t.findVksByAccountId 0 = .ok []) ∧
    ¬ RunSound id ([.inc 0 10, .inc 0 11, .dec 0 10] : List (Call ℕ ℕ ℕ)) := by
  refine ⟨?_, rfl, ⟨_, rfl, rfl⟩, ?_⟩
  · rintro before call ⟨rest, eq⟩
    match before, eq with
    | [], eq => cases eq; trivial
    | [_], eq => cases eq; trivial
    | [_, _], eq => cases eq; simp [Call.Matched, outstanding, Call.after]
    | _ :: _ :: _ :: _, eq => simp at eq
  · rintro ⟨t, run, -, finds⟩
    cases run
    obtain ⟨vks, found, -, listed⟩ := finds 0
    cases found
    exact absurd ((listed 11).2 (by decide)) (by simp)

/-- The theorem at a run that counts two keys of two accounts up, one of them
    down again. -/
theorem vkRefcountTable_consistent_two_accounts :
    outstanding id ([.inc 0 10, .inc 1 11, .dec 0 10] : List (Call ℕ ℕ ℕ)) = {(1, 11)} ∧
    ∀ before, before <+: ([.inc 0 10, .inc 1 11, .dec 0 10] : List (Call ℕ ℕ ℕ)) → RunSound id before := by
  refine ⟨by decide, (vkRefcountTable_consistent_iff id _ ?_).2 ?_⟩
  all_goals
    rintro before call ⟨rest, eq⟩
    match before, eq with
    | [], eq => cases eq; trivial
    | [_], eq => cases eq; trivial
    | [_, _], eq => cases eq; simp [Call.Matched, Call.Clean, outstanding, Call.after]
    | _ :: _ :: _ :: _, eq => simp at eq

end
end MinaRust.TransactionPool
