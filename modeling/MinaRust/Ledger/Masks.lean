/-
  The masks over one database.

  A mask is named by the path of child positions that leads to it.  What a mask reads and
  caches in its ancestors is seen by every other mask that shares them: `run` hands a mask
  its ancestors and puts them back.
-/
import MinaRust.Ledger.Write

namespace MinaRust.Ledger

open List Option MaskImpl

inductive MaskTree (A I F : Type) where
  | node (own : Layer A I F) (childs : List (MaskTree A I F))

structure Masks (A I F : Type) where
  database : Database A I F
  childs : List (MaskTree A I F)

variable {A I F : Type}

def MaskImpl.split : MaskImpl A I F → Except Panic (Layer A I F × MaskImpl A I F)
  | attached own parent => .ok (own, parent)
  | _ => .error .noMask

def MaskImpl.splitRoot : MaskImpl A I F → Except Panic (Database A I F)
  | root database => .ok database
  | _ => .error .noMask

namespace MaskTree

/-- The mask at a place, with its ancestors; `parent` is that of the tree. -/
def mask (parent : MaskImpl A I F) : List ℕ → MaskTree A I F → Option (MaskImpl A I F)
  | [], node own _ => some (.attached own parent)
  | i :: path, node own childs => childs[i]?.bind fun child => child.mask (.attached own parent) path

def childsAt : List ℕ → MaskTree A I F → List (MaskTree A I F)
  | [], node _ childs => childs
  | i :: path, node _ childs => childs[i]?.elim [] fun child => child.childsAt path

def run {α : Type} (f : MaskImpl A I F → Except Panic (α × MaskImpl A I F)) :
    MaskImpl A I F → List ℕ → MaskTree A I F →
    Except Panic (α × MaskTree A I F × MaskImpl A I F)
  | parent, [], node own childs => do
    let (a, m) ← f (.attached own parent)
    let (own, parent) ← m.split
    .ok (a, node own childs, parent)
  | parent, i :: path, node own childs =>
    match childs[i]? with
    | none => .error .noMask
    | some child => do
      let (a, child, m) ← child.run f (.attached own parent) path
      let (own, parent) ← m.split
      .ok (a, node own (childs.set i child), parent)

def addChild (child : MaskTree A I F) : List ℕ → MaskTree A I F → MaskTree A I F
  | [], node own childs => node own (childs ++ [child])
  | i :: path, node own childs => node own (childs.modify i (addChild child path))

def updateChilds (g : List (MaskTree A I F) → Except Panic (List (MaskTree A I F))) :
    List ℕ → MaskTree A I F → Except Panic (MaskTree A I F)
  | [], node own childs => do
    let childs ← g childs
    .ok (node own childs)
  | i :: path, node own childs =>
    match childs[i]? with
    | none => .error .noMask
    | some child => do
      let child ← child.updateChilds g path
      .ok (node own (childs.set i child))

end MaskTree

/-! ## Notifications -/

/-- Forget the path of the leaf, and prune an account equal to the one set in the parent. -/
def Layer.parentSetNotify [DecidableEq I] [DecidableEq A] (V : TreeVersion A I F) (accountIndex : ℕ)
    (account : A) (own : Layer A I F) : Except Panic (Layer A I F) :=
  let own := { own with hashes := own.hashes.invalidateHashes accountIndex }
  match (own.idToAddr.lookup (V.id account)).bind fun addr =>
    own.owningAccount.lookup addr.toIndex with
  | none => .ok own
  | some ownAccount =>
    if ownAccount = account then own.removeOwnAccount [V.id account] else .ok own

mutual

/-- The children of a mask are notified before the mask itself. -/
def MaskTree.parentSetNotify [DecidableEq I] [DecidableEq A]
    (V : TreeVersion A I F) (accountIndex : ℕ) (account : A) :
    MaskTree A I F → Except Panic (MaskTree A I F)
  | .node own childs => do
    let childs ← notifyAll V accountIndex account childs
    let own ← own.parentSetNotify V accountIndex account
    .ok (.node own childs)

def notifyAll [DecidableEq I] [DecidableEq A] (V : TreeVersion A I F) (accountIndex : ℕ) (account : A) :
    List (MaskTree A I F) → Except Panic (List (MaskTree A I F))
  | [] => .ok []
  | child :: childs => do
    let child ← child.parentSetNotify V accountIndex account
    let childs ← notifyAll V accountIndex account childs
    .ok (child :: childs)

end

mutual

/-- Forget the paths of the given leaves, in a mask and all below it. -/
def MaskTree.invalidateHashes (indexes : List ℕ) : MaskTree A I F → MaskTree A I F
  | .node own childs =>
    .node { own with hashes := indexes.foldl (fun h i => h.invalidateHashes i) own.hashes }
      (invalidateAll indexes childs)

def invalidateAll (indexes : List ℕ) : List (MaskTree A I F) → List (MaskTree A I F)
  | [] => []
  | child :: childs => child.invalidateHashes indexes :: invalidateAll indexes childs

end

namespace Masks

def create (depth : ℕ) : Masks A I F := ⟨.create depth, []⟩

def mask (t : Masks A I F) : List ℕ → Option (MaskImpl A I F)
  | [] => some (.root t.database)
  | i :: path => t.childs[i]?.bind fun child => child.mask (.root t.database) path

def childsAt (t : Masks A I F) : List ℕ → List (MaskTree A I F)
  | [] => t.childs
  | i :: path => t.childs[i]?.elim [] fun child => child.childsAt path

def run {α : Type} (f : MaskImpl A I F → Except Panic (α × MaskImpl A I F)) :
    List ℕ → Masks A I F → Except Panic (α × Masks A I F)
  | [], t => do
    let (a, m) ← f (.root t.database)
    let database ← m.splitRoot
    .ok (a, { t with database := database })
  | i :: path, t =>
    match t.childs[i]? with
    | none => .error .noMask
    | some child => do
      let (a, child, m) ← child.run f (.root t.database) path
      let database ← m.splitRoot
      .ok (a, ⟨database, t.childs.set i child⟩)

def addChild (child : MaskTree A I F) : List ℕ → Masks A I F → Masks A I F
  | [], t => { t with childs := t.childs ++ [child] }
  | i :: path, t => { t with childs := t.childs.modify i (MaskTree.addChild child path) }

/-- A new mask takes the last filled location of its parent when it is registered. -/
def makeChild (path : List ℕ) (t : Masks A I F) : Except Panic (Masks A I F) :=
  match t.mask path with
  | none => .error .noMask
  | some m =>
    .ok (t.addChild (.node { Layer.new m.depth with lastLocation := m.lastFilled } []) path)

def updateChilds (g : List (MaskTree A I F) → Except Panic (List (MaskTree A I F))) :
    List ℕ → Masks A I F → Except Panic (Masks A I F)
  | [], t => do
    let childs ← g t.childs
    .ok { t with childs := childs }
  | i :: path, t =>
    match t.childs[i]? with
    | none => .error .noMask
    | some child => do
      let child ← child.updateChilds g path
      .ok { t with childs := t.childs.set i child }

section
variable [DecidableEq I] [DecidableEq A] (V : TreeVersion A I F)

/-- `set`: the children are notified first. -/
def set (path : List ℕ) (addr : Address) (account : A) (t : Masks A I F) : Except Panic (Masks A I F) := do
  let t ← t.updateChilds (notifyAll V addr.toIndex account) path
  let (_, t) ← t.run (fun m => .ok ((), m.set V addr account)) path
  .ok t

def getOrCreateAccount (path : List ℕ) (accountId : I) (account : A) (t : Masks A I F) :
    Except Panic (Except DatabaseError GetOrCreated × Masks A I F) :=
  t.run (MaskImpl.getOrCreateAccount accountId account) path

/-- `remove_accounts`: afterwards the masks below forget the hashes. -/
def removeAccounts (path : List ℕ) (ids : List I) (t : Masks A I F) : Except Panic (Masks A I F) := do
  let (indexes, t) ← t.run (MaskImpl.removeAccounts V ids) path
  t.updateChilds (fun childs => .ok (invalidateAll indexes childs)) path

end

end Masks

/-! ## Sound trees -/

/-- Every mask of the tree is sound over the accounts `below` it. -/
inductive MaskTree.Sound (V : TreeVersion A I F) (d : ℕ) : (ℕ → Option A) → MaskTree A I F → Prop
  | node {below : ℕ → Option A} {own : Layer A I F}
      {childs : List (MaskTree A I F)} (sound : own.Sound V d below)
      (room : own.hashes.emptyHashes.length = d)
      (all : ∀ child ∈ childs, MaskTree.Sound V d (own.overlay below) child) :
      MaskTree.Sound V d below (.node own childs)

structure Masks.Sound (V : TreeVersion A I F) (d : ℕ)
    (t : Masks A I F) : Prop where
  database : t.database.Sound V d
  childs : ∀ child ∈ t.childs, child.Sound V d t.database.getAtIndex

variable {V : TreeVersion A I F} {d : ℕ}

theorem MaskTree.Sound.mask : ∀ {path : List ℕ} {t : MaskTree A I F}
    (parent : MaskImpl A I F) {m : MaskImpl A I F},
    t.Sound V d parent.view → parent.Sound V d → t.mask parent path = some m → m.Sound V d
  | [], .node own childs, parent, m, .node s room _, p, h => by
    cases h
    exact ⟨s, room, p⟩
  | i :: path, .node own childs, parent, m, .node s room all, p, h => by
    rw [MaskTree.mask, bind_eq_some_iff] at h
    obtain ⟨child, hc, h⟩ := h
    exact MaskTree.Sound.mask (.attached own parent) (all child (mem_of_getElem? hc))
      ⟨s, room, p⟩ h

variable {m : MaskImpl A I F} {t : Masks A I F} {path : List ℕ}

theorem Masks.Sound.mask (s : t.Sound V d) (h : t.mask path = some m) : m.Sound V d := by
  cases path with
  | nil =>
    cases h
    exact s.database
  | cons i path =>
    rw [Masks.mask, bind_eq_some_iff] at h
    obtain ⟨child, hc, h⟩ := h
    exact MaskTree.Sound.mask (.root t.database) (s.childs child (mem_of_getElem? hc))
      s.database h

/-! ## Running an operation -/

theorem Layer.overlay_of_strip {own own' : Layer A I F} (h : own'.strip = own.strip)
    (below : ℕ → Option A) : own'.overlay below = own.overlay below := by
  have : own'.strip.overlay below = own.strip.overlay below := by rw [h]
  exact this

/-- The parents differ in hashes only. -/
def MaskImpl.SameParent (m m' : MaskImpl A I F) : Prop :=
  m'.parent?.map strip = m.parent?.map strip

theorem sameParent_of_strip {m' : MaskImpl A I F} (h : m'.strip = m.strip) : m.SameParent m' := by
  rw [SameParent]
  cases m <;> cases m' <;> simp_all [strip, parent?]

theorem MaskImpl.SameParent.attached {own : Layer A I F} {parent m' : MaskImpl A I F}
    (same : (MaskImpl.attached own parent).SameParent m') :
    ∃ own' parent', m' = .attached own' parent' ∧ parent'.strip = parent.strip := by
  cases m' with
  | attached own' parent' =>
    refine ⟨own', parent', rfl, ?_⟩
    simpa [SameParent, parent?] using same
  | root _ | unattached _ => simp [SameParent, parent?] at same

/-- **Running an operation.**  It may change the accounts of the mask only if
    that has no children. -/
theorem MaskTree.Sound.run {α : Type} {a : α} {f : MaskImpl A I F → Except Panic (α × MaskImpl A I F)} :
    ∀ {path : List ℕ} {t : MaskTree A I F}
      (parent : MaskImpl A I F) {m m' : MaskImpl A I F},
      t.Sound V d parent.view → parent.Sound V d → t.mask parent path = some m →
      f m = .ok (a, m') → m'.Sound V d → m.SameParent m' →
      (m'.strip = m.strip ∨ t.childsAt path = []) →
      ∃ t' parent', t.run f parent path = .ok (a, t', parent') ∧ t'.Sound V d parent.view ∧
        parent'.Sound V d ∧ parent'.strip = parent.strip
  | [], .node own childs, parent, m, m', .node s room all, p, hm, run, sound, same, keep => by
    cases hm
    obtain ⟨own', parent', rfl, strip⟩ := same.attached
    obtain ⟨s', room', p'⟩ := sound
    rw [view_of_strip strip] at s'
    refine ⟨.node own' childs, parent', ?_, .node s' room' fun child hc => ?_, p', strip⟩
    · rw [MaskTree.run, run]
      rfl
    · rcases keep with keep | keep
      · injection keep with own_eq
        rw [Layer.overlay_of_strip own_eq]
        exact all child hc
      · rw [show childs = [] from keep] at hc
        cases hc
  | i :: path, .node own childs, parent, m, m', .node s room all, p, hm, run, sound, same, keep => by
    rw [MaskTree.mask, bind_eq_some_iff] at hm
    obtain ⟨child, hc, hm⟩ := hm
    have keep : m'.strip = m.strip ∨ child.childsAt path = [] := by
      rw [childsAt, hc] at keep
      exact keep
    obtain ⟨child', parent', eq, s', p', strip⟩ := MaskTree.Sound.run (.attached own parent)
      (all child (mem_of_getElem? hc)) ⟨s, room, p⟩ hm run sound same keep
    obtain ⟨own', parent'', rfl, strip'⟩ := (sameParent_of_strip strip).attached
    injection strip with own_eq
    obtain ⟨sOwn, roomOwn, p''⟩ := p'
    rw [view_of_strip strip'] at sOwn
    refine ⟨.node own' (childs.set i child'), parent'', ?_, .node sOwn roomOwn fun c hc' => ?_, p'', strip'⟩
    · simp only [MaskTree.run, hc, eq]
      rfl
    · rw [Layer.overlay_of_strip own_eq]
      rcases mem_or_eq_of_mem_set hc' with hc' | rfl
      · exact all c hc'
      · exact s'

theorem Masks.Sound.run {α : Type} {a : α} {f : MaskImpl A I F → Except Panic (α × MaskImpl A I F)}
    {t : Masks A I F} (s : t.Sound V d) {path : List ℕ} {m m' : MaskImpl A I F} (hm : t.mask path = some m)
    (run : f m = .ok (a, m')) (sound : m'.Sound V d) (same : m.SameParent m')
    (keep : m'.strip = m.strip ∨ t.childsAt path = []) : ∃ t', t.run f path = .ok (a, t') ∧ t'.Sound V d := by
  cases path with
  | nil =>
    cases hm
    cases m' with
    | root database =>
      refine ⟨{ t with database := database }, ?_, sound, fun child hc => ?_⟩
      · rw [Masks.run, run]
        rfl
      · rcases keep with keep | keep
        · injection keep with keep
          show child.Sound V d database.getAtIndex
          rw [Database.getAtIndex_of_strip keep]
          exact s.childs child hc
        · rw [show t.childs = [] from keep] at hc
          cases hc
    | attached own parent => simp [MaskImpl.SameParent, MaskImpl.parent?] at same
    | unattached own => exact sound.elim
  | cons i path =>
    rw [Masks.mask, bind_eq_some_iff] at hm
    obtain ⟨child, hc, hm⟩ := hm
    have keep : m'.strip = m.strip ∨ child.childsAt path = [] := by
      rw [Masks.childsAt, hc] at keep
      exact keep
    obtain ⟨child', parent', eq, s', p', strip⟩ := MaskTree.Sound.run (.root t.database)
      (s.childs child (mem_of_getElem? hc)) s.database hm run sound same keep
    cases parent' with
    | root database =>
      injection strip with strip
      refine ⟨⟨database, t.childs.set i child'⟩, ?_, p', fun c hc' => ?_⟩
      · simp only [Masks.run, hc, eq]
        rfl
      · show c.Sound V d database.getAtIndex
        rw [Database.getAtIndex_of_strip strip]
        rcases mem_or_eq_of_mem_set hc' with hc' | rfl
        · exact s.childs c hc'
        · exact s'
    | attached own parent => cases strip
    | unattached own => exact p'.elim

theorem MaskTree.run_error {α : Type} {e : Panic} {f : MaskImpl A I F → Except Panic (α × MaskImpl A I F)} :
    ∀ {path : List ℕ} {t : MaskTree A I F}
      {parent m : MaskImpl A I F}, t.mask parent path = some m →
      f m = .error e → t.run f parent path = .error e
  | [], .node own childs, parent, m, hm, h => by
    cases hm
    rw [MaskTree.run, h]
    rfl
  | i :: path, .node own childs, parent, m, hm, h => by
    rw [MaskTree.mask, bind_eq_some_iff] at hm
    obtain ⟨child, hc, hm⟩ := hm
    simp only [MaskTree.run, hc, MaskTree.run_error hm h]
    rfl

variable {α : Type}

theorem Masks.run_error {e : Panic} {f : MaskImpl A I F → Except Panic (α × MaskImpl A I F)}
    (hm : t.mask path = some m) (h : f m = .error e) : t.run f path = .error e := by
  cases path with
  | nil =>
    cases hm
    rw [Masks.run, h]
    rfl
  | cons i path =>
    rw [Masks.mask, bind_eq_some_iff] at hm
    obtain ⟨child, hc, hm⟩ := hm
    simp only [Masks.run, hc, MaskTree.run_error hm h]
    rfl

theorem set_of_getElem? {xs : List α} {i : ℕ} {x : α} (h : xs[i]? = some x) : xs.set i x = xs := by
  obtain ⟨hi, rfl⟩ := List.getElem?_eq_some_iff.1 h
  exact set_getElem_self hi

theorem MaskTree.updateChilds_nil {g : List (MaskTree A I F) → Except Panic (List (MaskTree A I F))}
    (hg : g [] = .ok []) : ∀ {path : List ℕ} {t : MaskTree A I F}
      {parent m : MaskImpl A I F}, t.mask parent path = some m →
      t.childsAt path = [] → t.updateChilds g path = .ok t
  | [], .node own childs, parent, m, _, h => by
    rw [show childs = [] from h, updateChilds, hg]
    rfl
  | i :: path, .node own childs, parent, m, hm, h => by
    rw [MaskTree.mask, bind_eq_some_iff] at hm
    obtain ⟨child, hc, hm⟩ := hm
    rw [childsAt, hc] at h
    simp only [updateChilds, hc, MaskTree.updateChilds_nil hg hm h, ok_bind]
    rw [set_of_getElem? hc]

variable {g : List (MaskTree A I F) → Except Panic (List (MaskTree A I F))}

theorem Masks.updateChilds_nil (hg : g [] = .ok []) (hm : t.mask path = some m) (h : t.childsAt path = []) :
    t.updateChilds g path = .ok t := by
  cases path with
  | nil =>
    obtain ⟨database, childs⟩ := t
    rw [show childs = [] from h, Masks.updateChilds, hg]
    rfl
  | cons i path =>
    rw [Masks.mask, bind_eq_some_iff] at hm
    obtain ⟨child, hc, hm⟩ := hm
    rw [Masks.childsAt, hc] at h
    simp only [Masks.updateChilds, hc, MaskTree.updateChilds_nil hg hm h, ok_bind]
    rw [set_of_getElem? hc]

theorem getElem?_set_of_some {xs : List α} {i : ℕ} {x y : α} (h : xs[i]? = some x) :
    (xs.set i y)[i]? = some y := by
  obtain ⟨hi, -⟩ := List.getElem?_eq_some_iff.1 h
  rw [List.getElem?_set_self hi]

theorem MaskTree.updateChilds_run {g : List (MaskTree A I F) → Except Panic (List (MaskTree A I F))}
    (hg : g [] = .ok []) {α : Type} {a : α} {f : MaskImpl A I F → Except Panic (α × MaskImpl A I F)} :
    ∀ {path : List ℕ} {t t' : MaskTree A I F}
      {parent parent' : MaskImpl A I F},
      t.run f parent path = .ok (a, t', parent') → t.childsAt path = [] →
      t'.updateChilds g path = .ok t'
  | [], .node own childs, t', parent, parent', h, childless => by
    obtain ⟨⟨a', m⟩, -, h⟩ := bind_eq_ok.1 h
    obtain ⟨⟨own', parent''⟩, -, h⟩ := bind_eq_ok.1 h
    cases h
    rw [show childs = [] from childless, updateChilds, hg]
    rfl
  | i :: path, .node own childs, t', parent, parent', h, childless => by
    rw [MaskTree.run] at h
    split at h
    · cases h
    · next child hc =>
      obtain ⟨⟨a', child', m⟩, run, h⟩ := bind_eq_ok.1 h
      obtain ⟨⟨own', parent''⟩, -, h⟩ := bind_eq_ok.1 h
      cases h
      rw [childsAt, hc] at childless
      simp [updateChilds, getElem?_set_of_some hc, MaskTree.updateChilds_run hg run childless, ok_bind, set_set]

theorem Masks.updateChilds_run (hg : g [] = .ok []) {a : α}
    {f : MaskImpl A I F → Except Panic (α × MaskImpl A I F)} {t' : Masks A I F} (h : t.run f path = .ok (a, t'))
    (childless : t.childsAt path = []) : t'.updateChilds g path = .ok t' := by
  cases path with
  | nil =>
    obtain ⟨⟨a', m⟩, -, h⟩ := bind_eq_ok.1 h
    obtain ⟨database, -, h⟩ := bind_eq_ok.1 h
    cases h
    show (g t.childs >>= _) = _
    rw [show t.childs = [] from childless, hg]
    rfl
  | cons i path =>
    rw [Masks.run] at h
    split at h
    · cases h
    · next child hc =>
      obtain ⟨⟨a', child', m⟩, run, h⟩ := bind_eq_ok.1 h
      obtain ⟨database, -, h⟩ := bind_eq_ok.1 h
      cases h
      rw [Masks.childsAt, hc] at childless
      simp [Masks.updateChilds, getElem?_set_of_some hc, MaskTree.updateChilds_run hg run childless, ok_bind, set_set]

/-! ## New masks -/

theorem MaskTree.Sound.addChild {child : MaskTree A I F} : ∀ {path : List ℕ} {t : MaskTree A I F}
      (parent : MaskImpl A I F) {m : MaskImpl A I F},
      t.Sound V d parent.view → t.mask parent path = some m → child.Sound V d m.view →
      (MaskTree.addChild child path t).Sound V d parent.view
  | [], .node own childs, parent, m, .node s room all, hm, hc => by
    cases hm
    refine .node s room fun c h => ?_
    rcases mem_append.1 h with h | h
    · exact all c h
    · rw [mem_singleton.1 h]
      exact hc
  | i :: path, .node own childs, parent, m, .node s room all, hm, hc => by
    rw [MaskTree.mask, bind_eq_some_iff] at hm
    obtain ⟨old, found, hm⟩ := hm
    refine .node s room fun c h => ?_
    rw [modify_eq_set_getElem?, found] at h
    rcases mem_or_eq_of_mem_set h with h | rfl
    · exact all c h
    · exact MaskTree.Sound.addChild (.attached own parent) (all old (mem_of_getElem? found))
        hm hc

theorem Masks.Sound.addChild (s : t.Sound V d) {child : MaskTree A I F} (hm : t.mask path = some m)
    (hc : child.Sound V d m.view) : (t.addChild child path).Sound V d := by
  cases path with
  | nil =>
    cases hm
    refine ⟨s.database, fun c h => ?_⟩
    rcases mem_append.1 h with h | h
    · exact s.childs c h
    · rw [mem_singleton.1 h]
      exact hc
  | cons i path =>
    rw [Masks.mask, bind_eq_some_iff] at hm
    obtain ⟨old, found, hm⟩ := hm
    refine ⟨s.database, fun c h => ?_⟩
    rw [show (t.addChild child (i :: path)).childs = t.childs.modify i (MaskTree.addChild child path)
      from rfl, modify_eq_set_getElem?, found] at h
    rcases mem_or_eq_of_mem_set h with h | rfl
    · exact s.childs c h
    · exact MaskTree.Sound.addChild (.root t.database) (s.childs old (mem_of_getElem? found))
        hm hc

theorem Layer.sound_new (s : m.Sound V d) :
    ({ Layer.new m.depth with lastLocation := m.lastFilled } : Layer A I F).Sound V d
      m.view := by
  have ok : m.Answers V d m.lastAccount := s.answers
  rw [ok.depth]
  exact {
    depth := rfl
    hashes := HashesMatrix.sound_new
    index := nofun
    leaf := fun {l} h => ok.lastFilled.1 l h
    le := fun h => by cases h
    listed := fun h => by cases h }

theorem Masks.Sound.makeChild {t' : Masks A I F} (s : t.Sound V d) (h : t.makeChild path = .ok t') :
    t'.Sound V d := by
  rw [Masks.makeChild] at h
  split at h
  · cases h
  · next m hm =>
    cases h
    have sm := s.mask hm
    refine s.addChild hm (.node (Layer.sound_new sm) ?_ nofun)
    have ok : m.Answers V d m.lastAccount := sm.answers
    rw [ok.depth]
    exact length_replicate

end MinaRust.Ledger
