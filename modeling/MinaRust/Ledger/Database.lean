/-
  The database at the root of the masks (`DatabaseImpl<V2>` of `database_impl.rs`).

  The accounts lie in a vector, indexed by their leaf; hashes are computed on demand and kept
  in a matrix.  The directory, the identifier and the index of token owners are left out.
-/
import MinaRust.Ledger.Emulate

namespace MinaRust.Ledger

open List Address

inductive GetOrCreated where
  | added (addr : Address)
  | existed (addr : Address)
  deriving DecidableEq, Repr

inductive DatabaseError where
  | outOfLeaves
  deriving DecidableEq, Repr

/-- Remove the given ids from an index and return their addresses. -/
def takeAddrs {I : Type} [DecidableEq I] : List I →
    HashMap I Address → Except Panic (List Address × HashMap I Address)
  | [], idToAddr => .ok ([], idToAddr)
  | id :: ids, idToAddr =>
    match idToAddr.lookup id with
    | none => .error .unwrapNone
    | some addr => do
      let (addrs, idToAddr) ← takeAddrs ids (idToAddr.erase id)
      .ok (addr :: addrs, idToAddr)

def lastFirst (addrs : List Address) : List Address :=
  (addrs.mergeSort fun a b => a.toIndex ≤ b.toIndex).reverse

variable (addr : Address) (lastLocation : Option Address)

def extendLast : Option Address :=
  if lastLocation.elim true fun l => l.toIndex < addr.toIndex then some addr else lastLocation

def shrinkLast : Option Address :=
  if lastLocation.any (· == addr) then addr.prev else lastLocation

def nextLocation (depth : ℕ) (lastFilled : Option Address) : Option Address :=
  match lastFilled with
  | some last => last.next
  | none => some (.first depth)

def Reaches (i : ℕ) : Prop :=
  ∃ l, lastLocation = some l ∧ i ≤ l.toIndex

section
variable {d i : ℕ} {addr l : Address} {last : Option Address}

theorem leaf_extendLast (ha : addr.length = d) (leaf : ∀ l, last = some l → l.length = d)
    (h : extendLast addr last = some l) : l.length = d := by
  rw [extendLast] at h
  split at h
  · cases h
    exact ha
  · exact leaf l h

theorem reaches_extendLast : Reaches (extendLast addr last) addr.toIndex := by
  rw [extendLast]
  cases last with
  | none => exact ⟨addr, rfl, le_rfl⟩
  | some l =>
    split
    · exact ⟨addr, rfl, le_rfl⟩
    · next after => exact ⟨l, rfl, by simpa using after⟩

theorem Reaches.extendLast (h : Reaches last i) : Reaches (extendLast addr last) i := by
  obtain ⟨l, rfl, hi⟩ := h
  rw [Ledger.extendLast]
  split
  · next before =>
    have : l.toIndex < addr.toIndex := by simpa using before
    exact ⟨addr, rfl, by omega⟩
  · exact ⟨l, rfl, hi⟩

theorem nextLocation_eq_some (hd : d ≤ nbits) (leaf : ∀ l, last = some l → l.length = d)
    (h : nextLocation d last = some addr) : addr.length = d ∧ ∀ {i}, Reaches last i → i < addr.toIndex := by
  cases last with
  | none =>
    cases h
    exact ⟨rfl, fun ⟨l, hl, _⟩ => by cases hl⟩
  | some l =>
    have len := leaf l rfl
    obtain ⟨h₁, h₂, -⟩ := next_eq_some (len.trans_le hd) h
    refine ⟨h₁.trans len, ?_⟩
    rintro i ⟨l', hl, hi⟩
    cases hl
    omega

theorem leaf_shrinkLast (hd : d ≤ nbits) (leaf : ∀ l, last = some l → l.length = d)
    (ha : addr.length = d) (h : shrinkLast addr last = some l) : l.length = d := by
  rw [shrinkLast] at h
  split at h
  · rw [(prev_eq_some (ha.trans_le hd) h).1, ha]
  · exact leaf l h

theorem Reaches.shrinkLast (hd : d ≤ nbits) (ha : addr.length = d) (h : Reaches last i)
    (ne : i ≠ addr.toIndex) : Reaches (shrinkLast addr last) i := by
  obtain ⟨l, rfl, hi⟩ := h
  rw [Ledger.shrinkLast]
  split
  · next same =>
    have same := (beq_eq_true.1 (by simpa using same : (l == addr) = true)).2
    -- `i` is before the removed location, so that location has a predecessor
    cases prev : addr.prev with
    | none =>
      have := prev_eq_none.1 prev
      omega
    | some p =>
      have := prev_eq_some (ha.trans_le hd) prev
      exact ⟨p, rfl, by omega⟩
  · exact ⟨l, rfl, hi⟩

end

structure Database (A I F : Type) where
  accounts : List (Option A)
  hashesMatrix : HashesMatrix F
  idToAddr : HashMap I Address
  depth : ℕ
  lastLocation : Option Address
  naccounts : ℕ

variable {A I F : Type}

namespace Database

def create (depth : ℕ) : Database A I F where
  accounts := []
  hashesMatrix := .new depth
  idToAddr := ∅
  depth := depth
  lastLocation := none
  naccounts := 0

variable (V : TreeVersion A I F)

def getAtIndex (db : Database A I F) (index : ℕ) : Option A :=
  db.accounts[index]?.join

def get (db : Database A I F) (addr : Address) : Option A :=
  db.getAtIndex addr.toIndex

def lastFilled (db : Database A I F) : Option Address := db.lastLocation

/-! ## Hashes -/

def getAccountHash (accountIndex : ℕ) (db : Database A I F) : Except Panic (Option F × Database A I F) :=
  let addr := fromIndex accountIndex db.depth
  match db.hashesMatrix.get addr with
  | some hash => .ok (some hash, db)
  | none =>
    match db.get addr with
    | none => .ok (none, db)
    | some account => do
      let hash := V.hashLeaf account
      let matrix ← db.hashesMatrix.set addr hash
      .ok (some hash, { db with hashesMatrix := matrix })

def cache : HashCache (Database A I F) F where
  getCachedHash db addr := db.hashesMatrix.get addr
  setCachedHash db addr hash := do
    let matrix ← db.hashesMatrix.set addr hash
    .ok { db with hashesMatrix := matrix }
  emptyHashAtHeight db height := do
    let (hash, matrix) ← db.hashesMatrix.emptyHashAtHeight V height
    .ok (hash, { db with hashesMatrix := matrix })

def leafHash (addr : Address) (db : Database A I F) : Except Panic (F × Database A I F) := do
  let (hash, db) ← db.getAccountHash V addr.toIndex
  match hash with
  | some hash => .ok (hash, db)
  | none => (cache V).emptyHashAtHeight db 0

/-- The argument is the height of `addr`, `tree_depth - addr.length()`. -/
def emulateTreeRecursive (lastAccount : Address) : ℕ → Address →
    Database A I F → Except Panic (F × Database A I F)
  | 0 => leafHash V
  | height + 1 =>
    hashFromChildren (cache V) V lastAccount height (emulateTreeRecursive lastAccount height)

def emulateTreeToGetPath (lastAccount : Address) : ℕ → Address → Walk F × Database A I F →
    Except Panic (F × (Walk F × Database A I F))
  | 0 => fun addr s => do
    let (hash, db) ← leafHash V addr s.2
    .ok (hash, (s.1, db))
  | height + 1 =>
    pathFromChildren (cache V) V lastAccount height (emulateTreeToGetPath lastAccount height)
      (emulateTreeToGetPath lastAccount height)

def lastAccount (db : Database A I F) : Address :=
  db.lastFilled.getD (.first db.depth)

def merklePath (addr : Address) (db : Database A I F) :
    Except Panic (List (MerklePath F) × Database A I F) := do
  let (_, (walk, db)) ←
    emulateTreeToGetPath V db.lastAccount db.depth .root (⟨addr.directions, []⟩, db)
  .ok (walk.merklePath, db)

/-! ## The index of the accounts, and the writes -/

section
variable [DecidableEq I]

def locationOfAccount (db : Database A I F) (accountId : I) : Option Address :=
  db.idToAddr.lookup accountId

def createAccount (accountId : I) (account : A) (db : Database A I F) :
    Except Panic (Except DatabaseError GetOrCreated × Database A I F) :=
  match db.idToAddr.lookup accountId with
  | some addr => .ok (.ok (.existed addr), db)
  | none =>
    match nextLocation db.depth db.lastLocation with
    | none => .ok (.error .outOfLeaves, db)
    | some location => do
      ensure .locationMismatch (location.toIndex = db.accounts.length)
      .ok (.ok (.added location), { db with
        accounts := db.accounts ++ [some account]
        lastLocation := some location
        naccounts := db.naccounts + 1
        idToAddr := db.idToAddr.insert accountId location })

def getOrCreateAccount (accountId : I) (account : A) (db : Database A I F) :
    Except Panic (Except DatabaseError GetOrCreated × Database A I F) := do
  let (result, db) ← db.createAccount accountId account
  match result with
  | .ok (.added addr) => .ok (result, { db with
      hashesMatrix := db.hashesMatrix.invalidateHashes addr.toIndex })
  | _ => .ok (result, db)

def set (addr : Address) (account : A) (db : Database A I F) : Database A I F :=
  let index := addr.toIndex
  let accounts := db.accounts ++ List.replicate (index + 1 - db.accounts.length) none
  let old := db.get addr
  { db with
    hashesMatrix := db.hashesMatrix.invalidateHashes index
    idToAddr := (old.elim db.idToAddr fun old => db.idToAddr.erase (V.id old)).insert
      (V.id account) addr
    naccounts := old.elim (db.naccounts + 1) fun _ => db.naccounts
    accounts := accounts.set index (some account)
    lastLocation := extendLast addr db.lastLocation }

def removeAt (addr : Address) (db : Database A I F) : Except Panic (Database A I F) :=
  let index := addr.toIndex
  let db := { db with hashesMatrix := db.hashesMatrix.invalidateHashes index }
  match db.get addr with
  | none => .ok db
  | some account => do
    let naccounts ← checkedSub .invalidNaccounts db.naccounts 1
    .ok { db with
      accounts := db.accounts.set index none
      idToAddr := db.idToAddr.erase (V.id account)
      naccounts := naccounts
      lastLocation := shrinkLast addr db.lastLocation }

def removeAccounts (ids : List I) (db : Database A I F) : Except Panic (Database A I F) := do
  let (addrs, idToAddr) ← takeAddrs ids db.idToAddr
  (lastFirst addrs).foldlM (fun db addr => db.removeAt V addr) { db with idToAddr := idToAddr }

end

/-! ## Sound databases -/

def strip (db : Database A I F) : Database A I F :=
  { db with hashesMatrix := .new 0 }

/-- The matrix holds hashes of the full tree over the accounts, and no account
    lies after the last location. -/
structure Sound (d : ℕ) (db : Database A I F) : Prop where
  depth : db.depth = d
  hashes : db.hashesMatrix.Sound V d db.getAtIndex
  room : db.hashesMatrix.emptyHashes.length = d
  leaf : ∀ {l : Address}, db.lastLocation = some l → l.length = d
  le : ∀ {i : ℕ}, db.getAtIndex i ≠ none → Reaches db.lastLocation i
  index : ∀ e ∈ db.idToAddr.entries, e.2.length = d

variable {V} {d : ℕ} {db db' db₀ : Database A I F}

theorem sound_create : (create d : Database A I F).Sound V d where
  depth := rfl
  hashes := HashesMatrix.sound_new
  room := length_replicate
  leaf h := by cases h
  le h := absurd rfl h
  index := nofun

theorem getAtIndex_of_strip (h : db.strip = db₀.strip) : db.getAtIndex = db₀.getAtIndex := by
  have : db.strip.getAtIndex = db₀.strip.getAtIndex := by rw [h]
  exact this

theorem Sound.bounds (s : db.Sound V d) (hd : d ≤ nbits) : Bounds d db.getAtIndex db.lastAccount := by
  refine ⟨hd, ?_, fun some => ?_⟩
  · rw [lastAccount, lastFilled]
    cases h : db.lastLocation with
    | none => exact s.depth
    | some l => exact s.leaf h
  · obtain ⟨l, hl, le⟩ := s.le some
    rw [lastAccount, lastFilled, hl]
    exact le

theorem Sound.withMatrix (s : db.Sound V d) {m : HashesMatrix F} (hm : m.Sound V d db.getAtIndex)
    (room : m.emptyHashes.length = d) : { db with hashesMatrix := m }.Sound V d :=
  { depth := s.depth, hashes := hm, room := room, leaf := s.leaf, le := s.le, index := s.index }

/-- The databases that differ from `db₀` in hashes only, and are sound. -/
def Like (V : TreeVersion A I F) (d : ℕ) (db₀ db : Database A I F) : Prop :=
  db.Sound V d ∧ db.strip = db₀.strip

theorem Like.withMatrix (ok : Like V d db₀ db) {m : HashesMatrix F} (hm : m.Sound V d db.getAtIndex)
    (room : m.emptyHashes.length = d) : Like V d db₀ { db with hashesMatrix := m } :=
  ⟨ok.1.withMatrix hm room, ok.2⟩

theorem lawful_of {view : ℕ → Option A} {Ok : Database A I F → Prop} (hd : d ≤ rangeHeight) (last : Address)
    (sound : ∀ db, Ok db → db.hashesMatrix.Sound V d view ∧ db.hashesMatrix.emptyHashes.length = d)
    (withMatrix : ∀ db m, Ok db → m.Sound V d view → m.emptyHashes.length = d → Ok { db with hashesMatrix := m }) :
    (cache V).Lawful V d view last Ok where
  get ok ha h := (sound _ ok).1.get (hd.trans (by decide)) ha h
  set {s a} ok ha fresh := by
    obtain ⟨m, set, sound', empties⟩ := (sound s ok).1.set (hd.trans (by decide)) ha fresh
    refine ⟨_, ?_, withMatrix s m ok sound' (by rw [empties, (sound s ok).2])⟩
    show (s.hashesMatrix.set a _ >>= _) = _
    rw [set]
    rfl
  empty {s h} ok hh _ := by
    obtain ⟨m, eq, sound', -, room⟩ := (sound s ok).1.emptyHashAtHeight (sound s ok).2 hd hh
    refine ⟨_, ?_, withMatrix s m ok sound' room⟩
    show (s.hashesMatrix.emptyHashAtHeight V h >>= _) = _
    rw [eq]
    rfl

theorem lawful (hd : d ≤ rangeHeight) (last : Address) :
    (cache V).Lawful V d db₀.getAtIndex last (Like V d db₀) :=
  lawful_of hd last (fun db ok => ⟨getAtIndex_of_strip ok.2 ▸ ok.1.hashes, ok.1.room⟩)
    fun db m ok hm => ok.withMatrix ((getAtIndex_of_strip ok.2).symm ▸ hm)

theorem getAccountHash_spec (hd : d ≤ nbits) (ok : Like V d db₀ db) {i : ℕ} (hi : i < 2 ^ d) :
    ∃ o db', db.getAccountHash V i = .ok (o, db') ∧ Like V d db₀ db' ∧
      (o = none → db₀.getAtIndex i = none) ∧
      ∀ x, o = some x → x = V.leafHash (db₀.getAtIndex i) := by
  have index : (fromIndex i d).toIndex = i := toIndex_fromIndex hi hd
  have view := getAtIndex_of_strip ok.2
  have node : V.nodeHash db.getAtIndex (d - (fromIndex i d).length)
      (fromIndex i d).toIndex = V.leafHash (db₀.getAtIndex i) := by
    rw [show d - (fromIndex i d).length = 0 from Nat.sub_self d, index, view]
    rfl
  rw [getAccountHash, show fromIndex i db.depth = .fromIndex i d by rw [ok.1.depth]]
  cases cached : db.hashesMatrix.get (.fromIndex i d) with
  | some x =>
    refine ⟨some x, db, rfl, ok, nofun, fun y hy => ?_⟩
    cases hy
    rw [ok.1.hashes.get hd le_rfl cached, node]
  | none =>
    simp only [get, index]
    rw [view]
    cases here : db₀.getAtIndex i with
    | none => exact ⟨none, db, rfl, ok, fun _ => rfl, nofun⟩
    | some account =>
      obtain ⟨m, set, sound, empties⟩ := ok.1.hashes.set hd le_rfl cached
      rw [node, here] at set
      refine ⟨some (V.hashLeaf account), _, ?_, ok.withMatrix sound (by rw [empties, ok.1.room]),
        nofun, fun y hy => ?_⟩
      · show (db.hashesMatrix.set _ (V.leafHash (some account)) >>= _) = _
        rw [set]
        rfl
      · cases hy
        rfl

theorem leafHash_spec (hd : d ≤ rangeHeight) (pos : 0 < d) :
    HashesAt V d db₀.getAtIndex (Like V d db₀) 0 (leafHash V) := by
  intro a db _ ha ok
  have hb : d ≤ nbits := hd.trans (by decide)
  have hi : a.toIndex < 2 ^ d := by
    rw [← ha]
    exact toIndex_lt (by omega)
  obtain ⟨o, db₁, eq, ok₁, empty, known⟩ := getAccountHash_spec hb ok hi
  rw [leafHash, eq]
  cases o with
  | some x => exact ⟨db₁, by rw [known x rfl]; rfl, ok₁⟩
  | none =>
    obtain ⟨m, eq₂, sound, -, room⟩ := ok₁.1.hashes.emptyHashAtHeight ok₁.1.room hd pos
    refine ⟨_, ?_, ok₁.withMatrix sound room⟩
    show (db₁.hashesMatrix.emptyHashAtHeight V 0 >>= _) = _
    rw [eq₂, TreeVersion.nodeHash, Merkle.hashAt, empty rfl]
    rfl

theorem emulateTreeRecursive_spec (hd : d ≤ rangeHeight) (pos : 0 < d) {last : Address}
    (b : Bounds d db₀.getAtIndex last) : ∀ n : ℕ,
    HashesAt V d db₀.getAtIndex (Like V d db₀) n (emulateTreeRecursive V last n)
  | 0 => leafHash_spec hd pos
  | n + 1 => hashFromChildren_spec (lawful hd last) b (emulateTreeRecursive_spec hd pos b n)

theorem emulateTreeToGetPath_spec (hd : d ≤ rangeHeight) (pos : 0 < d) {last : Address}
    (b : Bounds d db₀.getAtIndex last) : ∀ n : ℕ,
    PathsAt V d db₀.getAtIndex (Like V d db₀) n (emulateTreeToGetPath V last n)
  | 0 => by
    intro a w db clean ha hw ok
    obtain ⟨db', eq, ok'⟩ := leafHash_spec hd pos a db clean ha ok
    obtain ⟨path, mp⟩ := w
    obtain rfl : path = [] := length_eq_zero_iff.1 (Nat.le_zero.1 hw)
    refine ⟨db', ?_, ok'⟩
    show (leafHash V a db >>= _) = _
    rw [eq]
    simp [Merkle.siblings]
  | n + 1 => pathFromChildren_spec (lawful hd last) b (emulateTreeToGetPath_spec hd pos b n)
      (emulateTreeToGetPath_spec hd pos b n).hashesAt

/-! ## Writes keep the database sound -/

theorem getAtIndex_set [DecidableEq I] (addr : Address) (account : A) (i : ℕ) :
    (db.set V addr account).getAtIndex i =
      if i = addr.toIndex then some account else db.getAtIndex i := by
  have len : addr.toIndex < (db.accounts ++
      List.replicate (addr.toIndex + 1 - db.accounts.length) none).length := by
    rw [length_append, length_replicate]
    omega
  show ((db.accounts ++ List.replicate (addr.toIndex + 1 - db.accounts.length) none).set
    addr.toIndex (some account))[i]?.join = _
  rw [getElem?_set]
  by_cases same : addr.toIndex = i
  · rw [if_pos same, if_pos len, if_pos same.symm]
    rfl
  · rw [if_neg same, if_neg (Ne.symm same), getAtIndex, getElem?_append]
    split
    · rfl
    · next out =>
      rw [getElem?_eq_none (by omega : db.accounts.length ≤ i), getElem?_replicate]
      split <;> rfl

theorem Sound.set [DecidableEq I] (hd : d ≤ nbits) (s : db.Sound V d) {addr : Address}
    (ha : addr.length = d) (account : A) : (db.set V addr account).Sound V d where
  depth := s.depth
  hashes := by
    refine s.hashes.invalidateHashes hd ?_ fun j hj => ?_
    · rw [← ha]
      exact toIndex_lt (ha.trans_le hd)
    · rw [getAtIndex_set, if_neg hj]
  room := s.room
  leaf h := leaf_extendLast ha (fun _ => s.leaf) h
  le {i} h := by
    rw [getAtIndex_set] at h
    split at h
    · next same =>
      rw [same]
      exact reaches_extendLast
    · exact (s.le h).extendLast
  index e he := by
    rcases mem_entries_insert he with rfl | he
    · exact ha
    · cases old : db.get addr with
      | none =>
        rw [old] at he
        exact s.index e he
      | some old' =>
        rw [old] at he
        exact s.index e (mem_entries_erase he)

variable {result : Except DatabaseError GetOrCreated}

variable {accountId : I} {account : A}

theorem createAccount_cases [DecidableEq I] (h : db.createAccount accountId account = .ok (result, db')) :
    ((∀ location, result ≠ .ok (.added location)) ∧ db' = db) ∨ ∃ location, result = .ok (.added location) ∧
        nextLocation db.depth db.lastLocation = some location ∧
        location.toIndex = db.accounts.length ∧ db' = { db with
          accounts := db.accounts ++ [some account]
          lastLocation := some location
          naccounts := db.naccounts + 1
          idToAddr := db.idToAddr.insert accountId location } := by
  rw [createAccount] at h
  split at h
  · cases h
    exact Or.inl ⟨nofun, rfl⟩
  · split at h
    · cases h
      exact Or.inl ⟨nofun, rfl⟩
    · next location found =>
      obtain ⟨_, fits, rest⟩ := bind_eq_ok.1 h
      cases rest
      exact Or.inr ⟨location, rfl, found, ensure_eq_ok.1 fits, rfl⟩

/-- What `get_or_create_account` does when it adds an account. -/
def added [DecidableEq I] (accountId : I) (account : A) (location : Address)
    (db : Database A I F) : Database A I F :=
  { db with
    accounts := db.accounts ++ [some account]
    lastLocation := some location
    naccounts := db.naccounts + 1
    idToAddr := db.idToAddr.insert accountId location
    hashesMatrix := db.hashesMatrix.invalidateHashes location.toIndex }

theorem getOrCreateAccount_cases [DecidableEq I]
    (h : db.getOrCreateAccount accountId account = .ok (result, db')) :
    db' = db ∨ ∃ location, result = .ok (.added location) ∧
      nextLocation db.depth db.lastLocation = some location ∧
      location.toIndex = db.accounts.length ∧ db' = db.added accountId account location := by
  obtain ⟨⟨result₁, db₁⟩, create, rest⟩ := bind_eq_ok.1 h
  rcases createAccount_cases create with ⟨same, rfl⟩ | ⟨location, rfl, found, fits, rfl⟩
  · refine Or.inl ?_
    rcases result₁ with e | ⟨location⟩ | ⟨addr⟩
    · cases rest
      rfl
    · exact absurd rfl (same location)
    · cases rest
      rfl
  · cases rest
    exact Or.inr ⟨location, rfl, found, fits, rfl⟩

theorem getAtIndex_added [DecidableEq I] {location : Address} (fits : location.toIndex = db.accounts.length)
    (i : ℕ) :
    (db.added accountId account location).getAtIndex i =
      if i = location.toIndex then some account else db.getAtIndex i := by
  show (db.accounts ++ [some account])[i]?.join = _
  rw [getElem?_append, fits, getAtIndex]
  split
  · next lt => rw [if_neg (by omega)]
  · next ge =>
    rw [getElem?_eq_none (by omega : db.accounts.length ≤ i)]
    split
    · next same =>
      rw [same, Nat.sub_self]
      rfl
    · next ne => rw [getElem?_eq_none (by rw [length_singleton]; omega)]

theorem Sound.getOrCreateAccount [DecidableEq I] (hd : d ≤ nbits) (s : db.Sound V d)
    (h : db.getOrCreateAccount accountId account = .ok (result, db')) : db'.Sound V d := by
  rcases getOrCreateAccount_cases h with rfl | ⟨location, -, found, fits, rfl⟩
  · exact s
  rw [s.depth] at found
  obtain ⟨len, after⟩ := nextLocation_eq_some hd (fun _ => s.leaf) found
  exact {
    depth := s.depth
    hashes := by
      refine s.hashes.invalidateHashes hd ?_ fun j hj => ?_
      · rw [← len]
        exact toIndex_lt (len.trans_le hd)
      · rw [getAtIndex_added fits, if_neg hj]
    room := s.room
    leaf := fun h => by
      cases h
      exact len
    le := fun {i} h => by
      rw [getAtIndex_added fits] at h
      split at h
      · next same => exact ⟨location, rfl, same.le⟩
      · exact ⟨location, rfl, (after (s.le h)).le⟩
    index := fun e he => (mem_entries_insert he).elim (fun h => h ▸ len) (s.index e) }

/-! ## Removals -/

theorem takeAddrs_mem [DecidableEq I] : ∀ {ids : List I}
    {idToAddr idToAddr' : HashMap I Address} {addrs : List Address},
    takeAddrs ids idToAddr = .ok (addrs, idToAddr') →
    (∀ a ∈ addrs, ∃ e ∈ idToAddr.entries, e.2 = a) ∧ ∀ e ∈ idToAddr'.entries, e ∈ idToAddr.entries
  | [], idToAddr, idToAddr', addrs, h => by
    cases h
    exact ⟨nofun, fun _ => id⟩
  | id :: ids, idToAddr, idToAddr', addrs, h => by
    rw [takeAddrs] at h
    split at h
    · cases h
    · next addr found =>
      obtain ⟨⟨addrs, rest⟩, take, done⟩ := bind_eq_ok.1 h
      cases done
      obtain ⟨mem, sub⟩ := takeAddrs_mem take
      refine ⟨fun a ha => ?_, fun e he => mem_entries_erase (sub e he)⟩
      rcases mem_cons.1 ha with rfl | ha
      · exact ⟨⟨id, a⟩, AList.mem_lookup_iff.1 found, rfl⟩
      · obtain ⟨e, he, eq⟩ := mem a ha
        exact ⟨e, mem_entries_erase he, eq⟩

theorem mem_lastFirst {addrs : List Address} {a : Address} : a ∈ lastFirst addrs ↔ a ∈ addrs := by
  rw [lastFirst, mem_reverse]
  exact mem_mergeSort

theorem getAtIndex_remove (index i : ℕ) (db : Database A I F) :
    { db with accounts := db.accounts.set index none }.getAtIndex i =
      if i = index then none else db.getAtIndex i := by
  show (db.accounts.set index none)[i]?.join = _
  rw [getElem?_set]
  by_cases same : index = i
  · rw [if_pos same, if_pos same.symm]
    split <;> rfl
  · rw [if_neg same, if_neg (Ne.symm same)]
    rfl

theorem Sound.removeAt [DecidableEq I] (hd : d ≤ nbits) (s : db.Sound V d) {addr : Address}
    (ha : addr.length = d) (h : db.removeAt V addr = .ok db') : db'.Sound V d := by
  have hi : addr.toIndex < 2 ^ d := by
    rw [← ha]
    exact toIndex_lt (ha.trans_le hd)
  have view := fun i => getAtIndex_remove addr.toIndex i db
  rw [Database.removeAt] at h
  split at h
  · cases h
    exact s.withMatrix (s.hashes.invalidateHashes hd hi fun _ _ => rfl) s.room
  · obtain ⟨naccounts, -, rest⟩ := bind_eq_ok.1 h
    cases rest
    exact {
      depth := s.depth
      hashes := s.hashes.invalidateHashes hd hi fun j hj => by
        exact ((view j).trans (if_neg hj)).symm
      room := s.room
      leaf := leaf_shrinkLast hd (fun _ => s.leaf) ha
      le := fun {i} h => by
        have h : { db with accounts := db.accounts.set addr.toIndex none }.getAtIndex i ≠ none := h
        rw [view] at h
        split at h
        · exact absurd rfl h
        · next ne => exact (s.le h).shrinkLast hd ha ne
      index := fun e he => s.index e (mem_entries_erase he) }

theorem Sound.removeAccounts [DecidableEq I] (hd : d ≤ nbits) (s : db.Sound V d)
    {ids : List I} (h : db.removeAccounts V ids = .ok db') : db'.Sound V d := by
  obtain ⟨⟨addrs, idToAddr⟩, take, rest⟩ := bind_eq_ok.1 h
  obtain ⟨mem, sub⟩ := takeAddrs_mem take
  refine foldlM_induction (fun addr haddr db₁ db₂ s₁ step => s₁.removeAt hd ?_ step) ?_ rest
  · obtain ⟨e, he, rfl⟩ := mem addr (mem_lastFirst.1 haddr)
    exact s.index e he
  · exact { s with index := fun e he => s.index e (sub e he) }

end Database

end MinaRust.Ledger
