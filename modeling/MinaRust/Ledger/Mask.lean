/-
  Masks over a database (`MaskImpl` of `mask_impl.rs`).

  A mask holds the accounts written to it and looks up the others in its parent, down to the
  database at the root; a node below which it lists no account of its own is hashed by its
  parent.  A mask is modelled together with its ancestors.  The index of token owners is left
  out.
-/
import MinaRust.Ledger.Database

namespace MinaRust.Ledger

/-- What an attached or unattached mask holds itself. -/
structure Layer (A I F : Type) where
  owningAccount : HashMap ℕ A
  idToAddr : HashMap I Address
  lastLocation : Option Address
  depth : ℕ
  hashes : HashesMatrix F

inductive MaskImpl (A I F : Type) where
  | root (database : Database A I F)
  | attached (own : Layer A I F) (parent : MaskImpl A I F)
  | unattached (own : Layer A I F)

variable {A I F : Type}

namespace Layer

variable (V : TreeVersion A I F)

def new (depth : ℕ) : Layer A I F where
  owningAccount := ∅
  idToAddr := ∅
  lastLocation := none
  depth := depth
  hashes := .new depth

def accountHash (own : Layer A I F) (accountIndex : ℕ) (account : A) : Except Panic (F × Layer A I F) :=
  let addr := Address.fromIndex accountIndex own.depth
  match own.hashes.get addr with
  | some hash => .ok (hash, own)
  | none => do
    let hash := V.hashLeaf account
    let hashes ← own.hashes.set addr hash
    .ok (hash, { own with hashes := hashes })

/-- Whether some account listed by the mask itself lies below `addr`. -/
def listsBelow (own : Layer A I F) (addr : Address) : Bool :=
  own.idToAddr.entries.any fun e => addr.isParentOf e.2

section
variable [DecidableEq I]

def set (addr : Address) (account : A) (own : Layer A I F) : Layer A I F :=
  { own with
    owningAccount := own.owningAccount.insert addr.toIndex account
    idToAddr := own.idToAddr.insert (V.id account) addr
    lastLocation := extendLast addr own.lastLocation
    hashes := own.hashes.invalidateHashes addr.toIndex }

/-- `get_or_create_account` on the mask itself, at a new location. -/
def create (accountId : I) (account : A) (location : Address) (own : Layer A I F) : Layer A I F :=
  { own with
    idToAddr := own.idToAddr.insert accountId location
    lastLocation := some location
    owningAccount := own.owningAccount.insert location.toIndex account
    hashes := own.hashes.invalidateHashes location.toIndex }

def removeAt (addr : Address) (own : Layer A I F) : Except Panic (Layer A I F) :=
  match own.owningAccount.lookup addr.toIndex with
  | none => .error .unwrapNone
  | some _ => .ok { own with
      hashes := own.hashes.invalidateHashes addr.toIndex
      owningAccount := own.owningAccount.erase addr.toIndex
      lastLocation := shrinkLast addr own.lastLocation }

def removeOwnAccount (ids : List I) (own : Layer A I F) : Except Panic (Layer A I F) := do
  let (addrs, idToAddr) ← takeAddrs ids own.idToAddr
  let own ← (lastFirst addrs).foldlM (fun own addr => own.removeAt addr)
    { own with idToAddr := idToAddr }
  .ok { own with
    lastLocation := if own.owningAccount.entries.isEmpty then none else own.lastLocation }

end

end Layer

namespace MaskImpl

variable (V : TreeVersion A I F)

def depth : MaskImpl A I F → ℕ
  | root database => database.depth
  | attached own _ => own.depth
  | unattached own => own.depth

def get (addr : Address) : MaskImpl A I F → Option A
  | root database => database.get addr
  | attached own parent => own.owningAccount.lookup addr.toIndex <|> parent.get addr
  | unattached own => own.owningAccount.lookup addr.toIndex

def lastFilled : MaskImpl A I F → Option Address
  | root database => database.lastFilled
  | unattached own => own.lastLocation
  | attached own parent =>
    match parent.lastFilled with
    | none => own.lastLocation
    | some lastFilledParent =>
      match own.lastLocation with
      | none => some lastFilledParent
      | some last =>
        if lastFilledParent.toIndex < last.toIndex then some last else some lastFilledParent

variable (addr : Address) (m : MaskImpl A I F)

def numAccounts : ℕ :=
  m.lastFilled.elim 0 fun addr => addr.toIndex + 1

/-! ## Hashes -/

def getAccountHash (accountIndex : ℕ) : MaskImpl A I F → Except Panic (Option F × MaskImpl A I F)
  | root database => do
    let (hash, database) ← database.getAccountHash V accountIndex
    .ok (hash, root database)
  | attached own parent =>
    match own.owningAccount.lookup accountIndex with
    | some account => do
      let (hash, own) ← own.accountHash V accountIndex account
      .ok (some hash, attached own parent)
    | none => do
      let (hash, parent) ← parent.getAccountHash accountIndex
      .ok (hash, attached own parent)
  | unattached own =>
    match own.owningAccount.lookup accountIndex with
    | some account => do
      let (hash, own) ← own.accountHash V accountIndex account
      .ok (some hash, unattached own)
    | none => .ok (none, unattached own)

def withHashes {α : Type} (f : HashesMatrix F → Except Panic (α × HashesMatrix F)) :
    MaskImpl A I F → Except Panic (α × MaskImpl A I F)
  | root database => do
    let (a, hashes) ← f database.hashesMatrix
    .ok (a, root { database with hashesMatrix := hashes })
  | attached own parent => do
    let (a, hashes) ← f own.hashes
    .ok (a, attached { own with hashes := hashes } parent)
  | unattached own => do
    let (a, hashes) ← f own.hashes
    .ok (a, unattached { own with hashes := hashes })

def hashes : MaskImpl A I F → HashesMatrix F
  | root database => database.hashesMatrix
  | attached own _ => own.hashes
  | unattached own => own.hashes

def cache : HashCache (MaskImpl A I F) F where
  getCachedHash m addr := m.hashes.get addr
  setCachedHash m addr hash := do
    let (_, m) ← m.withHashes fun hashes => do
      let hashes ← hashes.set addr hash
      .ok ((), hashes)
    .ok m
  emptyHashAtHeight m height := m.withHashes fun hashes => hashes.emptyHashAtHeight V height

def leafHash : Except Panic (F × MaskImpl A I F) := do
  let (hash, m) ← m.getAccountHash V addr.toIndex
  match hash with
  | some hash => .ok (hash, m)
  | none => (cache V).emptyHashAtHeight m 0

/-- `compute_hash_or_parent`: the first mask towards the root that has the hash, or lists an
    account below `addr`, answers with `here`, the database with `atRoot`. -/
def orParent (addr : Address) (here : MaskImpl A I F → Except Panic (F × MaskImpl A I F))
    (atRoot : Database A I F → Except Panic (F × Database A I F)) :
    MaskImpl A I F → Except Panic (F × MaskImpl A I F)
  | root database => do
    let (hash, database) ← atRoot database
    .ok (hash, root database)
  | attached own parent =>
    match own.hashes.get addr with
    | some hash => .ok (hash, attached own parent)
    | none =>
      if own.listsBelow addr then here (attached own parent)
      else do
        let (hash, parent) ← orParent addr here atRoot parent
        .ok (hash, attached own parent)
  | unattached own =>
    match own.hashes.get addr with
    | some hash => .ok (hash, unattached own)
    | none =>
      if own.listsBelow addr then here (unattached own) else .error .unwrapNone

def emulateTreeRecursive (lastAccount : Address) : ℕ → Address →
    MaskImpl A I F → Except Panic (F × MaskImpl A I F)
  | 0 => leafHash V
  | height + 1 =>
    hashFromChildren (cache V) V lastAccount height fun addr =>
      orParent addr (emulateTreeRecursive lastAccount height addr)
        (Database.emulateTreeRecursive V lastAccount height addr)

def computeHashOrParent (lastAccount : Address) (height : ℕ) (addr : Address) :
    MaskImpl A I F → Except Panic (F × MaskImpl A I F) :=
  orParent addr (emulateTreeRecursive V lastAccount height addr)
    (Database.emulateTreeRecursive V lastAccount height addr)

/-- `compute_hash_or_parent_for_merkle_path`, as `orParent`; the first call does
    not look into the cache. -/
def orParentForMerklePath (addr : Address) (first : Bool)
    (here : Walk F × MaskImpl A I F → Except Panic (F × (Walk F × MaskImpl A I F)))
    (atRoot : Walk F × Database A I F → Except Panic (F × (Walk F × Database A I F))) (w : Walk F) :
    MaskImpl A I F →
    Except Panic (F × (Walk F × MaskImpl A I F))
  | root database => do
    let (hash, (w, database)) ← atRoot (w, database)
    .ok (hash, (w, root database))
  | attached own parent =>
    match (if first then none else own.hashes.get addr) with
    | some hash => .ok (hash, (w, attached own parent))
    | none =>
      if own.listsBelow addr then here (w, attached own parent)
      else do
        let (hash, (w, parent)) ← orParentForMerklePath addr first here atRoot w parent
        .ok (hash, (w, attached own parent))
  | unattached own =>
    match (if first then none else own.hashes.get addr) with
    | some hash => .ok (hash, (w, unattached own))
    | none =>
      if own.listsBelow addr then here (w, unattached own) else .error .unwrapNone

def emulateMerklePathRecursive (lastAccount : Address) : ℕ → Address → Walk F × MaskImpl A I F →
    Except Panic (F × (Walk F × MaskImpl A I F))
  | 0 => fun addr s => do
    let (hash, m) ← leafHash V addr s.2
    .ok (hash, (s.1, m))
  | height + 1 =>
    pathFromChildren (cache V) V lastAccount height (emulateMerklePathRecursive lastAccount height)
      fun addr s => orParentForMerklePath addr false
        (emulateMerklePathRecursive lastAccount height addr)
        (Database.emulateTreeToGetPath V lastAccount height addr) s.1 s.2

def lastAccount : Address :=
  m.lastFilled.getD (.first m.depth)

def emulateTreeToGetHashAt : Except Panic (F × MaskImpl A I F) :=
  match m.hashes.get addr with
  | some hash => .ok (hash, m)
  | none => computeHashOrParent V m.lastAccount (m.depth - addr.length) addr m

def merkleRoot : Except Panic (F × MaskImpl A I F) :=
  m.emulateTreeToGetHashAt V .root

def getInnerHashAtAddr : Except Panic (Except String F × MaskImpl A I F) :=
  if m.depth < addr.length then .ok (.error "Inner hash not found at address", m)
  else do
    let (hash, m) ← m.emulateTreeToGetHashAt V addr
    .ok (.ok hash, m)

def merklePath (addr : Address) : MaskImpl A I F → Except Panic (List (MerklePath F) × MaskImpl A I F)
  | root database => do
    let (path, database) ← database.merklePath V addr
    .ok (path, root database)
  | m => do
    let (_, (w, m)) ← orParentForMerklePath .root true
      (emulateMerklePathRecursive V m.lastAccount m.depth .root)
      (Database.emulateTreeToGetPath V m.lastAccount m.depth .root) ⟨addr.directions, []⟩ m
    .ok (w.merklePath, m)

/-! ## The index of the accounts, and the writes -/

section
variable [DecidableEq I]

def locationOfAccount (accountId : I) : MaskImpl A I F → Option Address
  | root database => database.locationOfAccount accountId
  | attached own parent => own.idToAddr.lookup accountId <|> parent.locationOfAccount accountId
  | unattached own => own.idToAddr.lookup accountId

/-- `set`, without the notification of the children. -/
def set (addr : Address) (account : A) : MaskImpl A I F → MaskImpl A I F
  | root database => root (database.set V addr account)
  | attached own parent => attached (own.set V addr account) parent
  | unattached own => unattached (own.set V addr account)

def getOrCreateAccount (accountId : I) (account : A) (m : MaskImpl A I F) :
    Except Panic (Except DatabaseError GetOrCreated × MaskImpl A I F) :=
  match m.locationOfAccount accountId with
  | some addr => .ok (.ok (.existed addr), m)
  | none =>
    match m with
    | root database => do
      let (result, database) ← database.getOrCreateAccount accountId account
      .ok (result, root database)
    | attached own parent =>
      match nextLocation own.depth (attached own parent).lastFilled with
      | none => .ok (.error .outOfLeaves, m)
      | some location =>
        .ok (.ok (.added location), attached (own.create accountId account location) parent)
    | unattached own =>
      match nextLocation own.depth own.lastLocation with
      | none => .ok (.error .outOfLeaves, m)
      | some location =>
        .ok (.ok (.added location), unattached (own.create accountId account location))

def removeAccountsWithoutNotif (ids : List I) : MaskImpl A I F → Except Panic (MaskImpl A I F)
  | root database => do
    let database ← database.removeAccounts V ids
    .ok (root database)
  | unattached own => do
    let own ← own.removeOwnAccount ids
    .ok (unattached own)
  | attached own parent => do
    let maskKeys := ids.filter fun id => (own.idToAddr.lookup id).isSome
    let parentKeys := ids.filter fun id => (own.idToAddr.lookup id).isNone
    let parent ← (if parentKeys.isEmpty then .ok parent
      else parent.removeAccountsWithoutNotif parentKeys)
    let own ← own.removeOwnAccount maskKeys
    .ok (attached own parent)

/-- `remove_accounts` on the mask itself, with the leaves where its children have
    to forget hashes. -/
def removeAccounts (ids : List I) (m : MaskImpl A I F) : Except Panic (List ℕ × MaskImpl A I F) := do
  let indexes := ids.filterMap fun id => (m.locationOfAccount id).map Address.toIndex
  let m ← m.removeAccountsWithoutNotif V ids
  .ok (indexes, m)

end

end MaskImpl

end MinaRust.Ledger
