/-
  Committing a mask to its parent (`commit`, `commit_and_reparent` and
  `commit_and_reparent_to_root` of `mask_impl.rs`).

  A commit sets the accounts of the mask in its parent, in the order in which its hash map is
  iterated, and hands over its hashes; the other children of the parent are notified of each
  account.
-/
import MinaRust.Ledger.Locations
import MinaRust.Ledger.Masks

set_option linter.unusedSectionVars false

namespace MinaRust.Ledger

open List Option Function AList MaskImpl

variable {A I F : Type}

structure Iteration (A : Type) where
  accounts : List ℕ → HashMap ℕ A → List (Sigma fun _ : ℕ => A)
  perm : ∀ path M, (accounts path M).Perm M.entries

def MaskTree.focus
    (f : MaskImpl A I F × List (MaskTree A I F) → Except Panic (MaskImpl A I F × List (MaskTree A I F))) :
    MaskImpl A I F → List ℕ → MaskTree A I F →
    Except Panic (MaskTree A I F × MaskImpl A I F)
  | parent, [], node own childs => do
    let (m, childs) ← f (.attached own parent, childs)
    let (own, parent) ← m.split
    .ok (node own childs, parent)
  | parent, i :: path, node own childs =>
    match childs[i]? with
    | none => .error .noMask
    | some child => do
      let (child, m) ← child.focus f (.attached own parent) path
      let (own, parent) ← m.split
      .ok (node own (childs.set i child), parent)

def Masks.focus
    (f : MaskImpl A I F × List (MaskTree A I F) → Except Panic (MaskImpl A I F × List (MaskTree A I F))) :
    List ℕ → Masks A I F → Except Panic (Masks A I F)
  | [], t => do
    let (m, childs) ← f (.root t.database, t.childs)
    let database ← m.splitRoot
    .ok ⟨database, childs⟩
  | i :: path, t =>
    match t.childs[i]? with
    | none => .error .noMask
    | some child => do
      let (child, m) ← child.focus f (.root t.database) path
      let database ← m.splitRoot
      .ok ⟨database, t.childs.set i child⟩

def MaskImpl.transfertHashes (hashes : HashesMatrix F) : MaskImpl A I F → MaskImpl A I F
  | root database => root { database with
      hashesMatrix := database.hashesMatrix.transfertHashes hashes }
  | attached own parent => attached { own with hashes := own.hashes.transfertHashes hashes } parent
  | unattached own => unattached { own with hashes := own.hashes.transfertHashes hashes }

/-- `set_parent` on a detached mask: it takes the last filled location of the new parent. -/
def MaskTree.register (parent : MaskImpl A I F) : MaskTree A I F → MaskTree A I F
  | node own childs => node { own with lastLocation := parent.lastFilled } childs

def Layer.flush (own : Layer A I F) : Layer A I F :=
  { own with owningAccount := ∅, idToAddr := ∅, hashes := own.hashes.take.2 }

/-- `remove_and_reparent` of child `i`, on its parent and the children of that. -/
def removeAndReparent (i : ℕ) : MaskImpl A I F × List (MaskTree A I F) →
    Except Panic (MaskImpl A I F × List (MaskTree A I F))
  | (parent, childs) =>
    match childs[i]? with
    | none => .error .noMask
    | some (.node _ grandchilds) =>
      .ok (parent, childs.eraseIdx i ++ grandchilds.map (MaskTree.register parent))

section
variable [DecidableEq I] [DecidableEq A] (V : TreeVersion A I F)

def notifyOthers (accountIndex : ℕ) (account : A) :
    ℕ → List (MaskTree A I F) → Except Panic (List (MaskTree A I F))
  | _, [] => .ok []
  | 0, child :: childs => do
    let childs ← notifyAll V accountIndex account childs
    .ok (child :: childs)
  | i + 1, child :: childs => do
    let child ← child.parentSetNotify V accountIndex account
    let childs ← notifyOthers accountIndex account i childs
    .ok (child :: childs)

def setIgnoring (i : ℕ) (addr : Address) (account : A) (s : MaskImpl A I F × List (MaskTree A I F)) :
    Except Panic (MaskImpl A I F × List (MaskTree A I F)) := do
  let childs ← notifyOthers V addr.toIndex account i s.2
  .ok (s.1.set V addr account, childs)

/-- `commit` of child `i`, on its parent and the children of that. -/
def commitChild (accounts : HashMap ℕ A → List (Sigma fun _ : ℕ => A)) (i : ℕ) :
    MaskImpl A I F × List (MaskTree A I F) →
    Except Panic (MaskImpl A I F × List (MaskTree A I F))
  | (parent, childs) =>
    match childs[i]? with
    | none => .error .noMask
    | some (.node own grandchilds) => do
      let (parent, childs) ← (accounts own.owningAccount).foldlM
        (fun s e => setIgnoring V i (.fromIndex e.1 own.depth) e.2 s)
        (parent, childs.set i (.node own.flush grandchilds))
      .ok (parent.transfertHashes own.hashes.take.1, childs)

namespace Masks

variable (it : Iteration A)

variable (path : List ℕ)

def commit (i : ℕ) (t : Masks A I F) : Except Panic (Masks A I F) :=
  t.focus (commitChild V (it.accounts (path ++ [i])) i) path

def commitAndReparent (i : ℕ) (t : Masks A I F) : Except Panic (Masks A I F) :=
  t.focus (fun s => do
    let s ← commitChild V (it.accounts (path ++ [i])) i s
    removeAndReparent i s) path

/-- The loop of `commit_and_reparent_to_root`; the path leads from the mask to the
    root. -/
def commitUpwards : List ℕ → Masks A I F → Except Panic (Masks A I F)
  | [], t => .ok t
  | i :: up, t => do
    let t ← t.commitAndReparent V it up.reverse i
    commitUpwards up t

def commitAndReparentToRoot (t : Masks A I F) : Except Panic (Masks A I F) :=
  t.commitUpwards V it path.reverse

end Masks

end

/-! ## The tree of masks -/

theorem MaskTree.mask_append : ∀ (path : List ℕ) (i : ℕ) (r : List ℕ)
    (t : MaskTree A I F) (parent : MaskImpl A I F),
    t.mask parent (path ++ i :: r) = (t.mask parent path).bind fun m =>
      (t.childsAt path)[i]?.bind fun child => child.mask m r
  | [], i, r, .node own childs, parent => rfl
  | j :: path, i, r, .node own childs, parent => by
    rw [cons_append, mask, mask, childsAt]
    cases childs[j]? with
    | none => rfl
    | some child => exact mask_append path i r child (.attached own parent)

theorem MaskTree.childsAt_append : ∀ (path : List ℕ) (i : ℕ) (r : List ℕ)
    (t : MaskTree A I F),
    t.childsAt (path ++ i :: r) = (t.childsAt path)[i]?.elim [] fun child => child.childsAt r
  | [], i, r, .node own childs => rfl
  | j :: path, i, r, .node own childs => by
    rw [cons_append, childsAt, childsAt]
    cases childs[j]? with
    | none => rfl
    | some child => exact childsAt_append path i r child

namespace Masks

variable {t : Masks A I F}

theorem mask_append (path : List ℕ) (i : ℕ) (r : List ℕ) (t : Masks A I F) :
    t.mask (path ++ i :: r) = (t.mask path).bind fun m =>
      (t.childsAt path)[i]?.bind fun child => child.mask m r := by
  cases path with
  | nil => rfl
  | cons j path =>
    rw [cons_append, mask, mask, childsAt]
    cases t.childs[j]? with
    | none => rfl
    | some child => exact MaskTree.mask_append path i r child _

theorem childsAt_append (path : List ℕ) (i : ℕ) (r : List ℕ) (t : Masks A I F) :
    t.childsAt (path ++ i :: r) = (t.childsAt path)[i]?.elim [] fun child => child.childsAt r := by
  cases path with
  | nil => rfl
  | cons j path =>
    rw [cons_append, childsAt, childsAt]
    cases t.childs[j]? with
    | none => rfl
    | some child => exact MaskTree.childsAt_append path i r child

theorem mask_snoc {path : List ℕ} {i : ℕ} {m : MaskImpl A I F} (h : t.mask (path ++ [i]) = some m) :
    ∃ parent own childs, t.mask path = some parent ∧
      (t.childsAt path)[i]? = some (.node own childs) ∧ m = .attached own parent ∧
      t.childsAt (path ++ [i]) = childs := by
  rw [mask_append, bind_eq_some_iff] at h
  obtain ⟨parent, hp, h⟩ := h
  rw [bind_eq_some_iff] at h
  obtain ⟨⟨own, childs⟩, hc, h⟩ := h
  cases h
  exact ⟨parent, own, childs, hp, hc, rfl, by rw [childsAt_append, hc]; rfl⟩

end Masks

section
variable {V : TreeVersion A I F} {d : ℕ}
  {f : MaskImpl A I F × List (MaskTree A I F) → Except Panic (MaskImpl A I F × List (MaskTree A I F))}

theorem MaskTree.focus_spec : ∀ {path : List ℕ} {t : MaskTree A I F}
    {parent m m' : MaskImpl A I F} {childs : List (MaskTree A I F)},
    t.mask parent path = some m → f (m, t.childsAt path) = .ok (m', childs) →
    m'.parent? = m.parent? →
    ∃ t', t.focus f parent path = .ok (t', parent) ∧ t'.mask parent path = some m' ∧
      t'.childsAt path = childs
  | [], .node own _, parent, m, m', childs, hm, run, same => by
    cases hm
    cases m' with
    | attached own' parent' =>
      cases same
      exact ⟨.node own' childs, by rw [focus]; exact (congrArg (· >>= _) run).trans rfl, rfl, rfl⟩
    | root _ | unattached _ => cases same
  | i :: path, .node own childs₀, parent, m, m', childs, hm, run, same => by
    rw [mask, bind_eq_some_iff] at hm
    obtain ⟨child, hc, hm⟩ := hm
    rw [childsAt, hc] at run
    obtain ⟨child', eq, hm', hc'⟩ := MaskTree.focus_spec hm run same
    refine ⟨.node own (childs₀.set i child'), ?_, ?_, ?_⟩
    · simp only [focus, hc, eq]
      rfl
    · rw [mask, getElem?_set_of_some hc]
      exact hm'
    · rw [childsAt, getElem?_set_of_some hc]
      exact hc'

theorem Masks.focus_spec {t : Masks A I F} {path : List ℕ} {m m' : MaskImpl A I F}
    {childs : List (MaskTree A I F)} (hm : t.mask path = some m)
    (run : f (m, t.childsAt path) = .ok (m', childs)) (same : m'.parent? = m.parent?) (sound : m'.Sound V d) :
    ∃ t', t.focus f path = .ok t' ∧ t'.mask path = some m' ∧ t'.childsAt path = childs := by
  cases path with
  | nil =>
    cases hm
    cases m' with
    | root database =>
      exact ⟨⟨database, childs⟩, by rw [focus]; exact (congrArg (· >>= _) run).trans rfl, rfl, rfl⟩
    | attached _ _ => cases same
    | unattached _ => exact sound.elim
  | cons i path =>
    rw [mask, bind_eq_some_iff] at hm
    obtain ⟨child, hc, hm⟩ := hm
    rw [childsAt, hc] at run
    obtain ⟨child', eq, hm', hc'⟩ := MaskTree.focus_spec hm run same
    refine ⟨⟨t.database, t.childs.set i child'⟩, ?_, ?_, ?_⟩
    · simp only [focus, hc, eq]
      rfl
    · rw [mask, getElem?_set_of_some hc]
      exact hm'
    · rw [childsAt, getElem?_set_of_some hc]
      exact hc'

end

/-! ## Notifications do not fail -/

section
variable [DecidableEq I] [DecidableEq A] {V : TreeVersion A I F}

theorem Layer.parentSetNotify_ok (accountIndex : ℕ) (account : A) (own : Layer A I F) :
    ∃ own', own.parentSetNotify V accountIndex account = .ok own' := by
  rw [parentSetNotify]
  split
  · exact ⟨_, rfl⟩
  · next ownAccount found =>
    split
    · -- the account to prune is listed, and it is there
      rw [bind_eq_some_iff] at found
      obtain ⟨addr, listed, here⟩ := found
      rw [removeOwnAccount, takeAddrs, listed]
      simp only [takeAddrs, ok_bind, lastFirst, mergeSort_singleton, reverse_singleton,
        foldlM_cons, foldlM_nil, removeAt, here]
      exact ⟨_, rfl⟩
    · exact ⟨_, rfl⟩

mutual

theorem MaskTree.parentSetNotify_ok (accountIndex : ℕ) (account : A) :
    ∀ t : MaskTree A I F, ∃ t', t.parentSetNotify V accountIndex account = .ok t'
  | .node own childs => by
    obtain ⟨childs', eq, -⟩ := notifyAll_ok accountIndex account childs
    obtain ⟨own', eq'⟩ := own.parentSetNotify_ok (V := V) accountIndex account
    exact ⟨.node own' childs', by rw [MaskTree.parentSetNotify, eq, ok_bind, eq', ok_bind]⟩

theorem notifyAll_ok (accountIndex : ℕ) (account : A) : ∀ childs : List (MaskTree A I F),
    ∃ childs', notifyAll V accountIndex account childs = .ok childs' ∧ childs'.length = childs.length
  | [] => ⟨[], rfl, rfl⟩
  | child :: childs => by
    obtain ⟨child', eq⟩ := MaskTree.parentSetNotify_ok accountIndex account child
    obtain ⟨childs', eq', len⟩ := notifyAll_ok accountIndex account childs
    exact ⟨child' :: childs', by rw [notifyAll, eq, ok_bind, eq', ok_bind], congrArg (· + 1) len⟩

end

theorem notifyOthers_ok (accountIndex : ℕ) (account : A) : ∀ (i : ℕ)
    (childs : List (MaskTree A I F)),
    ∃ childs', notifyOthers V accountIndex account i childs = .ok childs' ∧
      childs'.length = childs.length ∧ childs'[i]? = childs[i]?
  | _, [] => ⟨[], by rw [notifyOthers], rfl, rfl⟩
  | 0, child :: childs => by
    obtain ⟨childs', eq, len⟩ := notifyAll_ok (V := V) accountIndex account childs
    exact ⟨child :: childs', by rw [notifyOthers, eq, ok_bind], congrArg (· + 1) len, rfl⟩
  | i + 1, child :: childs => by
    obtain ⟨child', eq⟩ := MaskTree.parentSetNotify_ok (V := V) accountIndex account child
    obtain ⟨childs', eq', len, same⟩ := notifyOthers_ok accountIndex account i childs
    exact ⟨child' :: childs', by rw [notifyOthers, eq, ok_bind, eq', ok_bind], congrArg (· + 1) len, same⟩

/-! ## The parent after a commit -/

variable {d i : ℕ}

/-- Accounts of different ids, for different leaves. -/
def Apart (V : TreeVersion A I F) (e e' : Sigma fun _ : ℕ => A) : Prop :=
  V.id e.2 ≠ V.id e'.2 ∧ e.1 ≠ e'.1

/-- **The loop of `commit`.**  All accounts are written, and the child that
    commits is left alone. -/
theorem setAll_spec (hd : d ≤ nbits) : ∀ (accounts : List (Sigma fun _ : ℕ => A))
    {p : MaskImpl A I F} (childs : List (MaskTree A I F)),
    p.Sound V d → p.Kept V → (∀ e ∈ accounts, e.1 < 2 ^ d ∧ Fits V p.view e.1 e.2) →
    accounts.Pairwise (Apart V) →
    ∃ p' childs', accounts.foldlM (fun s e => setIgnoring V i (.fromIndex e.1 d) e.2 s) (p, childs) =
        .ok (p', childs') ∧
      p'.Sound V d ∧ p'.Kept V ∧ p'.parent? = p.parent? ∧
      childs'.length = childs.length ∧ childs'[i]? = childs[i]? ∧
      (∀ e ∈ accounts, p'.view e.1 = some e.2) ∧
      (∀ j, (∀ e ∈ accounts, e.1 ≠ j) → p'.view j = p.view j) ∧
      ∀ n, p'.numAccounts ≤ n ↔ p.numAccounts ≤ n ∧ ∀ e ∈ accounts, e.1 < n
  | [], p, childs, s, k, _, _ =>
    ⟨p, childs, rfl, s, k, rfl, rfl, rfl, nofun, fun _ _ => rfl, fun n => ⟨fun h => ⟨h, nofun⟩, fun h => h.1⟩⟩
  | e :: accounts, p, childs, s, k, fits, apart => by
    obtain ⟨first, rest⟩ := pairwise_cons.1 apart
    obtain ⟨bound, fit⟩ := fits e mem_cons_self
    have index : (Address.fromIndex e.1 d).toIndex = e.1 := Address.toIndex_fromIndex bound hd
    have fit' : Fits V p.view (Address.fromIndex e.1 d).toIndex e.2 := by
      rw [index]
      exact fit
    obtain ⟨s₁, parent₁⟩ : (p.set V (.fromIndex e.1 d) e.2).Sound V d ∧ _ :=
      s.set hd rfl (k.keeps fit')
    obtain ⟨childs₁, notify, len, same⟩ :=
      notifyOthers_ok (V := V) (Address.fromIndex e.1 d).toIndex e.2 i childs
    have view : (p.set V (.fromIndex e.1 d) e.2).view = Function.update p.view e.1 (some e.2) := by
      rw [view_set, index]
    obtain ⟨p', childs', run, s', k', parent', len', same', written, others, count⟩ :=
      setAll_spec hd accounts childs₁ s₁ (k.set fit') (fun e' he' => by
        obtain ⟨bound', fit'⟩ := fits e' (mem_cons_of_mem e he')
        refine ⟨bound', fun {j b} hb => ?_⟩
        rw [view] at hb
        by_cases hj : j = e.1
        · -- the account just written
          rw [hj, update_self] at hb
          cases hb
          obtain ⟨ids, leaves⟩ := first e' he'
          rw [hj]
          exact iff_of_false ids leaves
        · rw [update_of_ne hj] at hb
          exact fit' hb) rest
    refine ⟨p', childs', ?_, s', k', parent'.trans parent₁, len'.trans len, same'.trans same, ?_, ?_, ?_⟩
    · rw [foldlM_cons, setIgnoring, notify]
      exact run
    · intro e' he'
      rcases mem_cons.1 he' with rfl | he'
      · rw [others _ fun e'' he'' => (first e'' he'').2.symm, view, update_self]
      · exact written e' he'
    · intro j hj
      rw [others j fun e' he' => hj e' (mem_cons_of_mem e he'), view,
        update_of_ne (hj e mem_cons_self).symm]
    · intro n
      rw [count n, numAccounts_set, index, max_le_iff, forall_mem_cons, and_assoc]
      rfl

theorem MaskImpl.Sound.transfertHashes {hashes : HashesMatrix F} : ∀ {m : MaskImpl A I F},
    m.Sound V d → hashes.Sound V d m.view → (m.transfertHashes hashes).Sound V d
  | .root _, s, h => Database.Sound.withMatrix s ((Database.Sound.hashes s).transfertHashes h)
      (Database.Sound.room s)
  | .attached _ _, ⟨s, room, p⟩, h => ⟨{ s with hashes := s.hashes.transfertHashes h }, room, p⟩

theorem transfertHashes_same (hashes : HashesMatrix F) : ∀ m : MaskImpl A I F,
    (m.transfertHashes hashes).view = m.view ∧ (m.transfertHashes hashes).parent? = m.parent? ∧
      (m.transfertHashes hashes).numAccounts = m.numAccounts ∧
      (m.Kept V → (m.transfertHashes hashes).Kept V)
  | .root _ => ⟨rfl, rfl, rfl, id⟩
  | .attached _ _ => ⟨rfl, rfl, rfl, id⟩
  | .unattached _ => ⟨rfl, rfl, rfl, id⟩

theorem Layer.Sound.lt {own : Layer A I F} {below : ℕ → Option A} (s : own.Sound V d below) (hd : d ≤ nbits)
    {j : ℕ} (h : (own.owningAccount.lookup j).isSome) : j < 2 ^ d := by
  obtain ⟨l, hl, le⟩ := s.le h
  have := Address.toIndex_lt ((s.leaf hl).trans_le hd)
  rw [s.leaf hl] at this
  omega

theorem commitChild_spec (hd : d ≤ nbits) {accounts : HashMap ℕ A → List (Sigma fun _ : ℕ => A)}
    {own : Layer A I F} (perm : (accounts own.owningAccount).Perm own.owningAccount.entries)
    {p : MaskImpl A I F} {childs grandchilds : List (MaskTree A I F)}
    (hc : childs[i]? = some (.node own grandchilds)) (s : (attached own p).Sound V d)
    (k : (attached own p).Kept V) :
    ∃ p' childs', commitChild V accounts i (p, childs) = .ok (p', childs') ∧
      p'.Sound V d ∧ p'.Kept V ∧ p'.parent? = p.parent? ∧
      p'.view = (attached own p).view ∧
      p'.numAccounts = (attached own p).numAccounts ∧
      childs'.length = childs.length ∧ childs'[i]? = some (.node own.flush grandchilds) := by
  obtain ⟨sOwn, room, sp⟩ := s
  obtain ⟨index, compatible, tight, kp⟩ := k
  have lookup {e : Sigma fun _ : ℕ => A} (he : e ∈ accounts own.owningAccount) :
      own.owningAccount.lookup e.1 = some e.2 := mem_lookup_iff.2 (perm.subset he)
  obtain ⟨p', childs', run, s', k', parent', len, same, written, others, count⟩ :=
    setAll_spec hd (accounts own.owningAccount)
      (childs.set i (.node own.flush grandchilds)) sp kp
      (fun e he => ⟨sOwn.lt hd (by rw [lookup he]; rfl), compatible (lookup he)⟩) (by
        refine (perm.pairwise_iff fun h => ⟨h.1.symm, h.2.symm⟩).2 ?_
        refine (nodupKeys_iff_pairwise.1 own.owningAccount.nodupKeys).imp_of_mem
          fun {e e'} he he' ne => ⟨fun ids => ne ?_, ne⟩
        exact (index.compatible (mem_lookup_iff.2 he') (mem_lookup_iff.2 he)).1 ids)
  have view : p'.view = (attached own p).view := by
    funext j
    rw [MaskImpl.view, Layer.overlay]
    cases here : own.owningAccount.lookup j with
    | some a =>
      exact written ⟨j, a⟩ (perm.symm.subset (mem_lookup_iff.1 here))
    | none =>
      refine others j fun e he same => ?_
      rw [← same, lookup he] at here
      cases here
  obtain ⟨view', parent'', num, kept⟩ := transfertHashes_same (V := V) own.hashes p'
  refine ⟨p'.transfertHashes own.hashes, childs', ?_, ?_, kept k', parent''.trans parent',
    view'.trans view, num.trans ?_, ?_, ?_⟩
  · rw [commitChild, hc]
    show ((accounts own.owningAccount).foldlM _ _ >>= _) = _
    rw [sOwn.depth, run]
    rfl
  · refine MaskImpl.Sound.transfertHashes s' ?_
    rw [view]
    exact sOwn.hashes
  · rw [numAccounts_attached]
    refine le_antisymm ((count _).2 ⟨le_max_right .., fun e he => ?_⟩) (max_le ?_ ?_)
    · exact lt_max_of_lt_left (reaches_iff.1 (sOwn.le (by rw [lookup he]; rfl)))
    · cases last : own.lastLocation with
      | none => exact Nat.zero_le _
      | some l =>
        rcases tight l last with reaches | mine
        · exact (reaches_iff.1 reaches).trans_le ((count _).1 le_rfl).1
        · obtain ⟨a, ha⟩ := isSome_iff_exists.1 mine
          exact ((count _).1 le_rfl).2 ⟨l.toIndex, a⟩ (perm.symm.subset (mem_lookup_iff.1 ha))
    · exact ((count _).1 le_rfl).1
  · rw [len, length_set]
  · rw [same, getElem?_set_of_some hc]

end

end MinaRust.Ledger
