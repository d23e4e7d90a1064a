/-
  Writes to a mask.

  A mask asks its index, not its accounts, whether it has anything below a node; so a write
  has to keep every account listed.  `set` fails to do so when it writes an id that the mask
  lists at another leaf already (`Keeps`).
-/
import MinaRust.Ledger.View

namespace MinaRust.Ledger

open List AList

variable {A I F : Type} [DecidableEq I]

namespace Layer

variable {V : TreeVersion A I F} {d : ℕ} {below : ℕ → Option A}
  {own own' : Layer A I F}

/-- An account at another leaf, listed under the id of `account`, is listed under another id,
    too. -/
def Keeps (V : TreeVersion A I F) (addr : Address) (account : A) (own : Layer A I F) : Prop :=
  ∀ a, own.idToAddr.lookup (V.id account) = some a → a.toIndex ≠ addr.toIndex →
    (own.owningAccount.lookup a.toIndex).isSome →
    ∃ e ∈ own.idToAddr.entries, e.1 ≠ V.id account ∧ e.2.toIndex = a.toIndex

variable {addr : Address}

/-- A new entry at `addr`, listed under `id`: what `set` and
    `get_or_create_account` have in common. -/
theorem Sound.insert (hd : d ≤ nbits) (s : own.Sound V d below) {id : I} {account : A} {last : Option Address}
    (ha : addr.length = d)
    (keeps : ∀ a, own.idToAddr.lookup id = some a → a.toIndex ≠ addr.toIndex → (own.owningAccount.lookup a.toIndex).isSome → ∃ e ∈ own.idToAddr.entries, e.1 ≠ id ∧ e.2.toIndex = a.toIndex)
    (leaf : ∀ {l : Address}, last = some l → l.length = d) (self : Reaches last addr.toIndex)
    (rest : ∀ {i : ℕ}, Reaches own.lastLocation i → Reaches last i) :
    { own with
      owningAccount := own.owningAccount.insert addr.toIndex account
      idToAddr := own.idToAddr.insert id addr
      lastLocation := last
      hashes := own.hashes.invalidateHashes addr.toIndex }.Sound V d below where
  depth := s.depth
  hashes := by
    refine s.hashes.invalidateHashes hd ?_ fun j hj => overlay_insert account hj
    rw [← ha]
    exact Address.toIndex_lt (ha.trans_le hd)
  listed {i} h := by
    by_cases same : i = addr.toIndex
    · exact ⟨⟨id, addr⟩, mem_lookup_iff.1 (lookup_insert _), same.symm⟩
    · rw [lookup_insert_ne same] at h
      obtain ⟨e, he, rfl⟩ := s.listed h
      by_cases eid : e.1 = id
      · -- the leaf is listed under the id that moves to `addr`
        obtain ⟨e', he', ne, index⟩ := keeps e.2 (by
          rw [← eid]
          exact mem_lookup_iff.2 he) same h
        exact ⟨e', mem_entries_insert_of_ne he' ne, index⟩
      · exact ⟨e, mem_entries_insert_of_ne he eid, rfl⟩
  index e he := (mem_entries_insert he).elim (fun h => h ▸ ha) (s.index e)
  leaf := leaf
  le {i} h := by
    by_cases same : i = addr.toIndex
    · rw [same]
      exact self
    · rw [lookup_insert_ne same] at h
      exact rest (s.le h)

theorem Sound.set (hd : d ≤ nbits) (s : own.Sound V d below) {account : A} (ha : addr.length = d)
    (keeps : own.Keeps V addr account) : (own.set V addr account).Sound V d below :=
  s.insert hd ha keeps (leaf_extendLast ha fun _ => s.leaf) reaches_extendLast
    fun h => h.extendLast

theorem Sound.create (hd : d ≤ nbits) (s : own.Sound V d below) {location : Address} {id : I} {account : A}
    (ha : location.length = d) (fresh : own.idToAddr.lookup id = none)
    (after : ∀ {i : ℕ}, Reaches own.lastLocation i → i < location.toIndex) :
    (own.create id account location).Sound V d below :=
  s.insert hd ha (fun a h => by rw [fresh] at h; cases h)
    (fun h => by cases h; exact ha) ⟨location, rfl, le_rfl⟩
    fun h => ⟨location, rfl, (after h).le⟩

/-! ## Removals -/

theorem takeAddrs_listed : ∀ {ids : List I} {idToAddr idToAddr' : HashMap I Address}
    {addrs : List Address}, takeAddrs ids idToAddr = .ok (addrs, idToAddr') →
    ∀ e ∈ idToAddr.entries, e ∈ idToAddr'.entries ∨ e.2 ∈ addrs
  | [], idToAddr, idToAddr', addrs, h, e, he => by
    cases h
    exact Or.inl he
  | id :: ids, idToAddr, idToAddr', addrs, h, e, he => by
    rw [takeAddrs] at h
    split at h
    · cases h
    · next addr found =>
      obtain ⟨⟨addrs, rest⟩, take, done⟩ := bind_eq_ok.1 h
      cases done
      by_cases eid : e.1 = id
      · refine Or.inr (mem_cons.2 (Or.inl ?_))
        have : idToAddr.lookup e.1 = some e.2 := mem_lookup_iff.2 he
        rw [eid, found] at this
        exact (Option.some.inj this).symm
      · exact (takeAddrs_listed take e (mem_entries_erase_of_ne he eid)).imp_right
          fun h => mem_cons_of_mem _ h

omit [DecidableEq I] in
theorem Tidy.removeAt (hd : d ≤ nbits) (t : own.Tidy V d below) (ha : addr.length = d)
    (h : own.removeAt addr = .ok own') : own'.Tidy V d below := by
  rw [Layer.removeAt] at h
  split at h
  · cases h
  · cases h
    exact {
      depth := t.depth
      hashes := by
        refine t.hashes.invalidateHashes hd ?_ fun j hj => overlay_erase hj
        rw [← ha]
        exact Address.toIndex_lt (ha.trans_le hd)
      index := t.index
      leaf := leaf_shrinkLast hd (fun _ => t.leaf) ha
      le := fun {i} h => by
        have ne : i ≠ addr.toIndex := by
          rintro rfl
          rw [lookup_erase] at h
          cases h
        rw [lookup_erase_ne ne] at h
        exact (t.le h).shrinkLast hd ha ne }

omit [DecidableEq I] in
/-- Leaves no account at the given addresses, adds none, and leaves the index and the room for
    empty hashes alone. -/
theorem removeLoop : ∀ {addrs : List Address} {own own' : Layer A I F},
    addrs.foldlM (fun own addr => own.removeAt addr) own = .ok own' →
    own'.idToAddr = own.idToAddr ∧ own'.hashes.emptyHashes = own.hashes.emptyHashes ∧
      ∀ {i : ℕ}, (own'.owningAccount.lookup i).isSome →
        (own.owningAccount.lookup i).isSome ∧ ∀ a ∈ addrs, a.toIndex ≠ i
  | [], own, own', h => by
    cases h
    exact ⟨rfl, rfl, fun h => ⟨h, nofun⟩⟩
  | addr :: addrs, own, own', h => by
    rw [foldlM_cons, bind_eq_ok] at h
    obtain ⟨own₁, first, rest⟩ := h
    obtain ⟨index, empties, left⟩ := removeLoop rest
    rw [Layer.removeAt] at first
    split at first
    · cases first
    · cases first
      refine ⟨index, empties, fun {i} hi => ?_⟩
      obtain ⟨present, others⟩ := left hi
      have ne : i ≠ addr.toIndex := by
        rintro rfl
        rw [lookup_erase] at present
        cases present
      rw [lookup_erase_ne ne] at present
      refine ⟨present, fun a ha => ?_⟩
      rcases mem_cons.1 ha with rfl | ha
      · exact Ne.symm ne
      · exact others a ha

theorem Sound.removeOwnAccount (hd : d ≤ nbits) (s : own.Sound V d below) {ids : List I}
    (h : own.removeOwnAccount ids = .ok own') :
    own'.Sound V d below ∧ own'.hashes.emptyHashes = own.hashes.emptyHashes := by
  obtain ⟨⟨addrs, idToAddr⟩, take, rest⟩ := bind_eq_ok.1 h
  obtain ⟨own₁, loop, done⟩ := bind_eq_ok.1 rest
  cases done
  obtain ⟨mem, sub⟩ := Database.takeAddrs_mem take
  have tidy : own₁.Tidy V d below :=
    foldlM_induction (P := fun own => own.Tidy V d below) (fun addr haddr _ _ t step => by
      obtain ⟨e, he, rfl⟩ := mem addr (Database.mem_lastFirst.1 haddr)
      exact t.removeAt hd (s.index e he) step)
      { s.toTidy with index := fun e he => s.index e (sub e he) } loop
  obtain ⟨index, empties, left⟩ := removeLoop loop
  refine ⟨{ tidy with leaf := ?_, le := ?_, listed := ?_ }, empties⟩
  · intro l hl
    split at hl
    · cases hl
    · exact tidy.leaf hl
  · intro i hi
    rw [if_neg]
    · exact tidy.le hi
    · intro empty
      have : own₁.owningAccount.entries = [] := List.isEmpty_iff.1 empty
      rw [show own₁.owningAccount = ∅ from AList.ext this] at hi
      cases hi
  · intro i hi
    obtain ⟨present, gone⟩ := left hi
    obtain ⟨e, he, rfl⟩ := s.listed present
    rcases takeAddrs_listed take e he with kept | taken
    · rw [index]
      exact ⟨e, kept, rfl⟩
    · exact absurd rfl (gone e.2 (Database.mem_lastFirst.2 taken))

end Layer

namespace MaskImpl

variable {V : TreeVersion A I F} {d : ℕ} {m m' : MaskImpl A I F}

def parent? : MaskImpl A I F → Option (MaskImpl A I F)
  | attached _ parent => some parent
  | _ => none

/-- `Layer.Keeps`, for a mask; the database needs no such condition. -/
def Keeps (V : TreeVersion A I F) (addr : Address) (account : A) : MaskImpl A I F → Prop
  | attached own _ => own.Keeps V addr account
  | _ => True

def ListsAll (ids : List I) : MaskImpl A I F → Prop
  | attached own _ => ∀ id ∈ ids, (own.idToAddr.lookup id).isSome
  | _ => True

theorem Sound.set (hd : d ≤ nbits) {addr : Address} {account : A} (ha : addr.length = d) :
    ∀ {m : MaskImpl A I F}, m.Sound V d → m.Keeps V addr account →
    (m.set V addr account).Sound V d ∧ (m.set V addr account).parent? = m.parent?
  | root _, s, _ => ⟨Database.Sound.set hd s ha account, rfl⟩
  | attached _ _, ⟨s, room, p⟩, keeps => ⟨⟨s.set hd ha keeps, room, p⟩, rfl⟩

theorem Sound.getOrCreateAccount (hd : d ≤ nbits) {accountId : I} {account : A}
    {result : Except DatabaseError GetOrCreated} : ∀ {m m' : MaskImpl A I F},
    m.Sound V d → m.getOrCreateAccount accountId account = .ok (result, m') →
    m'.Sound V d ∧ m'.parent? = m.parent?
  | root database, m', s, h => by
    rw [MaskImpl.getOrCreateAccount] at h
    split at h
    · cases h
      exact ⟨s, rfl⟩
    · obtain ⟨⟨result₁, database'⟩, create, done⟩ := bind_eq_ok.1 h
      cases done
      exact ⟨Database.Sound.getOrCreateAccount hd s create, rfl⟩
  | attached own parent, m', ⟨s, room, p⟩, h => by
    rw [MaskImpl.getOrCreateAccount] at h
    split at h
    · cases h
      exact ⟨⟨s, room, p⟩, rfl⟩
    · next absent =>
      split at h
      · cases h
        exact ⟨⟨s, room, p⟩, rfl⟩
      · next location next =>
        cases h
        have ok : (attached own parent).Answers V d (attached own parent).lastAccount :=
          ⟨s, Or.inl room, p.answers⟩
        rw [s.depth] at next
        obtain ⟨len, after⟩ := nextLocation_eq_some hd ok.lastFilled.1 next
        have fresh : own.idToAddr.lookup accountId = none := by
          rw [locationOfAccount] at absent
          cases here : own.idToAddr.lookup accountId with
          | none => rfl
          | some a =>
            rw [here] at absent
            cases absent
        refine ⟨⟨s.create hd len fresh fun h => after ?_, room, p⟩, rfl⟩
        exact (lastFilled_attached own parent).2 _ (Or.inl h)

theorem Sound.removeAccountsWithoutNotif (hd : d ≤ nbits) {ids : List I} :
    ∀ {m m' : MaskImpl A I F}, m.Sound V d → m.ListsAll ids →
    m.removeAccountsWithoutNotif V ids = .ok m' → m'.Sound V d ∧ m'.parent? = m.parent?
  | root database, m', s, _, h => by
    obtain ⟨database', remove, done⟩ := bind_eq_ok.1 h
    cases done
    exact ⟨Database.Sound.removeAccounts hd s remove, rfl⟩
  | attached own parent, m', ⟨s, room, p⟩, lists, h => by
    have mine : ids.filter (fun id => (own.idToAddr.lookup id).isSome) = ids :=
      filter_eq_self.2 lists
    have others : ids.filter (fun id => (own.idToAddr.lookup id).isNone) = [] :=
      filter_eq_nil_iff.2 fun id hid => by simp [Option.isSome_iff_ne_none.1 (lists id hid)]
    rw [MaskImpl.removeAccountsWithoutNotif, mine, others] at h
    obtain ⟨parent', same, rest⟩ := bind_eq_ok.1 h
    cases same
    obtain ⟨own', remove, done⟩ := bind_eq_ok.1 rest
    cases done
    obtain ⟨s', empties⟩ := s.removeOwnAccount hd remove
    exact ⟨⟨s', by rw [empties]; exact room, p⟩, rfl⟩

end MaskImpl

end MinaRust.Ledger
