/-
  Ledger queries of peers (`node/src/ledger/read` and the functions of `ledger_service.rs`
  that answer them).

  A query is added to the queue of ledger reads, after it was compared with the reads that
  are pending.  The answer goes to every peer that waits for it, which takes another
  comparison.
-/
import MinaRust.Ledger.UnusedBits
import MinaRust.SnarkedSync.Complete

set_option linter.unusedSectionVars false

namespace MinaRust.LedgerRead

open Ledger List Function Address Nat MaskImpl

inductive ReadPanic where
  /-- `2_u32.pow(height_diff)` in `cost`. -/
  | overflow
  | indexOutOfBounds
  | service (e : SyncPanic)
  deriving DecidableEq, Repr

/-- `MerkleAddressBinableArgStableV1`: a depth and the bytes of a position. -/
structure WireAddress where
  depth : UInt64
  pos : List UInt8

/-- `From<MerkleAddressBinableArgStableV1> for Address`: the first bytes, as far as there are any. -/
def WireAddress.toAddress (w : WireAddress) : Address :=
  ⟨BitVec.ofNat nbits ((List.range 5).foldl (fun n i => 256 * n + (w.pos.getD i 0).toNat) 0), w.depth.toNat⟩

/-- A ledger query; on the wire (`WireAddress`), or as the node handles it (`Address`). -/
inductive LedgerQuery (A : Type) where
  | numAccounts
  | whatChildHashes (addr : A)
  | whatContents (addr : A)

def LedgerQuery.decode : LedgerQuery WireAddress → LedgerQuery Address
  | .numAccounts => .numAccounts
  | .whatChildHashes addr => .whatChildHashes addr.toAddress
  | .whatContents addr => .whatContents addr.toAddress

/-- `LedgerReadRequest`: those of ledger queries, and the others by their cost. -/
inductive LedgerReadRequest (H : Type) where
  | query (hash : H) (query : LedgerQuery Address)
  | other (cost : ℕ)

inductive LedgerReadResponse (A F : Type) where
  | getNumAccounts (response : Option (ℕ × F))
  | getChildHashesAtAddr (response : Option (F × F))
  | getChildAccountsAtAddr (response : Option (List A))

/-! ## The queue -/

structure LedgerReadState (H : Type) where
  pending : List (LedgerReadRequest H)
  totalCost : ℕ

def MAX_TOTAL_COST : ℕ := 256

def LedgerQuery.cost : LedgerQuery Address → Except ReadPanic ℕ
  | .numAccounts => .ok 1
  | .whatChildHashes _ => .ok 1
  | .whatContents addr =>
    let heightDiff := LEDGER_DEPTH - addr.length
    if 2 ^ heightDiff < 2 ^ 32 then .ok (max (2 ^ heightDiff / 4) 1) else .error .overflow

/-- `PartialEq for Address`: the bytes up to the last used one have to lie in the array. -/
def sameAddress (a b : Address) : Except ReadPanic Bool :=
  if a.length ≠ b.length then .ok false
  else if a.nusedBytes ≤ 5 then .ok (a == b)
  else if a.nusedBytes = 6 ∧ a.inner ≠ b.inner then .ok false
  else .error .indexOutOfBounds

section
variable {H P : Type} [DecidableEq H]

/-- `PartialEq for LedgerReadRequest`, for ledger queries: the hashes are compared first. -/
def sameQuery (hash hash' : H) : LedgerQuery Address → LedgerQuery Address → Except ReadPanic Bool
  | .numAccounts, .numAccounts => .ok (hash = hash')
  | .whatChildHashes a, .whatChildHashes b => if hash = hash' then sameAddress a b else .ok false
  | .whatContents a, .whatContents b => if hash = hash' then sameAddress a b else .ok false
  | _, _ => .ok false

def hasSameRequest (hash : H) (query : LedgerQuery Address) :
    List (LedgerReadRequest H) → Except ReadPanic Bool
  | [] => .ok false
  | .other _ :: pending => hasSameRequest hash query pending
  | .query hash' query' :: pending => do
    if ← sameQuery hash' hash query' query then return true else hasSameRequest hash query pending

/-- `Init` and `Pending` of a ledger query, which are enabled while the total cost is under the
    limit. -/
def LedgerReadState.init (s : LedgerReadState H) (hash : H) (query : LedgerQuery Address) :
    Except ReadPanic (LedgerReadState H) :=
  if MAX_TOTAL_COST ≤ s.totalCost then .ok s
  else do
    if ← hasSameRequest hash query s.pending then return s
    else do
      let cost ← query.cost
      return ⟨s.pending ++ [.query hash query], min (s.totalCost + cost) (2 ^ 64 - 1)⟩

def findPeersWithLedgerRpc (hash : H) (query : LedgerQuery Address) :
    List (P × H × LedgerQuery WireAddress) → Except ReadPanic (List P)
  | [] => .ok []
  | (peer, hash', query') :: remote => do
    let same ← sameQuery hash hash' query query'.decode
    let peers ← findPeersWithLedgerRpc hash query remote
    return if same then peer :: peers else peers

end

/-! ## Answers -/

section
variable {A I F : Type} [DecidableEq I] (V : TreeVersion A I F)

def getAllAccountsRootedAt (addr : Address) (m : MaskImpl A I F) : Option (List A) :=
  if m.depth < addr.length then none
  else
    let accounts := (addr.iterChildren m.depth).filterMap fun leaf => m.get leaf
    if accounts.isEmpty then none else some accounts

def ofService {α : Type} : Except SyncPanic α → Except ReadPanic α
  | .ok a => .ok a
  | .error e => .error (.service e)

theorem ofService_eq_ok {α : Type} {x : Except SyncPanic α} {a : α} : ofService x = .ok a ↔ x = .ok a := by
  cases x <;> simp [ofService]

/-- The answers of a synced ledger. The children of an address are built before the ledger is
    asked. -/
def read (m : MaskImpl A I F) :
    LedgerQuery Address → Except ReadPanic (LedgerReadResponse A F × MaskImpl A I F)
  | .numAccounts => do
    let (response, m) ← ofService (getNumAccounts V m)
    return (.getNumAccounts response, m)
  | .whatChildHashes addr =>
    if nbits ≤ addr.length then .error .indexOutOfBounds
    else do
      let (hashes, m) ← ofService (getChildHashes V addr m)
      return (.getChildHashesAtAddr (some hashes), m)
  | .whatContents addr => .ok (.getChildAccountsAtAddr (getAllAccountsRootedAt addr m), m)

end

/-! ## The right answers -/

/-- **The right answer**: the number of accounts with the hash above them, the hashes of the two
    children of a node, the accounts below a node in the order of their positions; and nothing
    for an address that is no inner node. -/
def Right {A I F : Type} (V : TreeVersion A I F) (m : MaskImpl A I F) :
    LedgerQuery Address → LedgerReadResponse A F → Prop
  | .numAccounts, .getNumAccounts response => ∃ height, treeHeightForNumAccounts m.numAccounts = .ok height ∧
      response = some (m.numAccounts, V.nodeHash m.view height 0)
  | .whatChildHashes addr, .getChildHashesAtAddr response =>
    if addr.length < LEDGER_DEPTH then
      response = some (V.nodeHash m.view (LEDGER_DEPTH - (addr.length + 1)) (2 * addr.toIndex),
        V.nodeHash m.view (LEDGER_DEPTH - (addr.length + 1)) (2 * addr.toIndex + 1))
    else response = none
  | .whatContents addr, .getChildAccountsAtAddr response =>
    if addr.length < LEDGER_DEPTH then
      response.getD [] = (List.range' (addr.toIndex * 2 ^ (LEDGER_DEPTH - addr.length))
        (2 ^ (LEDGER_DEPTH - addr.length))).filterMap m.view
    else response = none
  | _, _ => False

/-- **The queries that are handled**: hashes are asked for at an inner node, by an address
    without set bits after its length; accounts at an inner node of depth `4` at least, by an
    address whose first bit after its length is not set, or at a depth below the tree that the
    bytes of an address still have room for. -/
def Proper : LedgerQuery Address → Prop
  | .numAccounts => True
  | .whatChildHashes addr => addr.length < LEDGER_DEPTH ∧
      ∀ k, addr.length ≤ k → k < LEDGER_DEPTH → addr.get k = .left
  | .whatContents addr => 4 ≤ addr.length ∧ addr.length < LEDGER_DEPTH ∧ addr.FirstClear ∨
      LEDGER_DEPTH < addr.length ∧ addr.length ≤ nbits

/-! ## Comparisons -/

section
variable {H P : Type} [DecidableEq H] {hash hash' : H} {query : LedgerQuery Address} {a b : Address}

/-- The address of a query lies in the bytes that an address has. -/
def LedgerQuery.Fits : LedgerQuery Address → Prop
  | .numAccounts => True
  | .whatChildHashes addr => addr.length ≤ nbits
  | .whatContents addr => addr.length ≤ nbits

theorem sameAddress_ok (fits : a.length ≤ nbits ∨ b.length ≤ nbits) : ∃ same, sameAddress a b = .ok same := by
  unfold sameAddress
  split
  · exact ⟨_, rfl⟩
  · next same =>
    have used : a.nusedBytes ≤ 5 := by
      have : nbits = 40 := rfl
      rw [nusedBytes]
      omega
    rw [if_pos used]
    exact ⟨_, rfl⟩

theorem sameQuery_ok (hash hash' : H) {query' : LedgerQuery Address} (fits : query.Fits ∨ query'.Fits) :
    ∃ same, sameQuery hash hash' query query' = .ok same := by
  unfold sameQuery
  split
  · exact ⟨_, rfl⟩
  · split
    · exact sameAddress_ok fits
    · exact ⟨_, rfl⟩
  · split
    · exact sameAddress_ok fits
    · exact ⟨_, rfl⟩
  · exact ⟨_, rfl⟩

theorem hasSameRequest_ok (hash : H) (fits : query.Fits) : ∀ pending : List (LedgerReadRequest H),
    ∃ same, hasSameRequest hash query pending = .ok same
  | [] => ⟨_, rfl⟩
  | .other _ :: pending => hasSameRequest_ok hash fits pending
  | .query hash' query' :: pending => by
    obtain ⟨same, compared⟩ : ∃ same, sameQuery hash' hash query' query = .ok same := sameQuery_ok hash' hash (.inr fits)
    obtain ⟨rest, run⟩ := hasSameRequest_ok hash fits pending
    rw [hasSameRequest, compared, ok_bind]
    split
    · exact ⟨_, rfl⟩
    · exact ⟨rest, run⟩

theorem findPeers_ok (fits : query.Fits) : ∀ remote : List (P × H × LedgerQuery WireAddress),
    ∃ peers, findPeersWithLedgerRpc hash query remote = .ok peers
  | [] => ⟨_, rfl⟩
  | (peer, hash', query') :: remote => by
    obtain ⟨same, compared⟩ : ∃ same, sameQuery hash hash' query query'.decode = .ok same :=
      sameQuery_ok hash hash' (.inl fits)
    obtain ⟨peers, run⟩ := findPeers_ok fits remote
    rw [findPeersWithLedgerRpc, compared, run]
    exact ⟨_, rfl⟩

theorem cost_ok (fits : ∀ addr, query = .whatContents addr → 4 ≤ addr.length) : ∃ cost, query.cost = .ok cost := by
  cases query with
  | numAccounts | whatChildHashes addr => exact ⟨_, rfl⟩
  | whatContents addr =>
    have deep := fits addr rfl
    have small : 2 ^ (LEDGER_DEPTH - addr.length) < 2 ^ 32 := by
      refine Nat.pow_lt_pow_right (by decide) ?_
      have : LEDGER_DEPTH = 35 := rfl
      omega
    exact ⟨_, if_pos small⟩

theorem init_ok (s : LedgerReadState H) (fits : query.Fits)
    (deep : ∀ addr, query = .whatContents addr → 4 ≤ addr.length) : ∃ s', s.init hash query = .ok s' := by
  unfold LedgerReadState.init
  split
  · exact ⟨_, rfl⟩
  · obtain ⟨same, compared⟩ := hasSameRequest_ok hash fits s.pending
    obtain ⟨cost, known⟩ := cost_ok deep
    rw [compared, ok_bind]
    split
    · exact ⟨_, rfl⟩
    · rw [known]
      exact ⟨_, rfl⟩

end

/-! ## Answers to proper queries -/

section
variable {A I F : Type} [DecidableEq I] {V : TreeVersion A I F}
  {m : MaskImpl A I F} {addr : Address}

theorem clean_trim (clear : ∀ k, addr.length ≤ k → k < LEDGER_DEPTH → addr.get k = .left) :
    (addr.trim LEDGER_DEPTH).Clean := by
  refine eq_of_testBit_eq fun k => ?_
  rw [testBit_mod_two_pow, zero_testBit, Bool.and_eq_false_iff]
  by_cases low : k < nbits - addr.length
  · refine .inr ?_
    by_cases after : nbits - LEDGER_DEPTH ≤ k
    · have left := clear (nbits - 1 - k) (by omega) (by
        omega)
      have back : nbits - 1 - (nbits - 1 - k) = k := by omega
      have agree := (addr.agree_trim LEDGER_DEPTH).2 k after
      rw [Address.get, back] at left
      show (addr.trim LEDGER_DEPTH).inner.getLsbD k = false
      rw [← agree]
      by_contra set
      rw [Bool.not_eq_false] at set
      rw [set] at left
      cases left
    · have small : addr.inner.toNat / 2 ^ (nbits - LEDGER_DEPTH) * 2 ^ (nbits - LEDGER_DEPTH) < 2 ^ nbits :=
        (div_mul_le_self _ _).trans_lt addr.inner.isLt
      show (BitVec.ofNat nbits _).toNat.testBit k = false
      rw [BitVec.toNat_ofNat, mod_eq_of_lt small, Nat.mul_comm, testBit_two_pow_mul]
      simp [after]
  · exact .inl (by simp only [Address.trim]; exact decide_eq_false low)

theorem getHashOrEmpty_agree {a b : Address} (ok : m.Answers V LEDGER_DEPTH m.lastAccount)
    (h : a.Agree LEDGER_DEPTH b) (clean : b.Clean) (short : b.length ≤ LEDGER_DEPTH) :
    ∃ m', getHashOrEmpty V a m = .ok (hashAtAddr V m.view b, m') ∧ m'.Answers V LEDGER_DEPTH m'.lastAccount ∧
      m'.view = m.view := by
  obtain ⟨m', run, rest⟩ := getHashOrEmpty_spec ok clean short
  refine ⟨m', ?_, rest⟩
  rw [← run, getHashOrEmpty, getHashOrEmpty, getHash, getHash, h.1]
  have depth : m.depth = LEDGER_DEPTH := ok.depth
  rw [← depth] at h
  rw [getInnerHashAtAddr_agree h]

/-- **The hashes of the children** of an address without set bits after its length. -/
theorem getChildHashes_right (ok : m.Answers V LEDGER_DEPTH m.lastAccount) (short : addr.length < LEDGER_DEPTH)
    (clear : ∀ k, addr.length ≤ k → k < LEDGER_DEPTH → addr.get k = .left) :
    ∃ m', getChildHashes V addr m =
      .ok ((V.nodeHash m.view (LEDGER_DEPTH - (addr.length + 1)) (2 * addr.toIndex),
        V.nodeHash m.view (LEDGER_DEPTH - (addr.length + 1)) (2 * addr.toIndex + 1)), m') := by
  have clean := clean_trim clear
  have agree := addr.agree_trim LEDGER_DEPTH
  have bits : (addr.trim LEDGER_DEPTH).length < nbits := short.trans (by decide)
  obtain ⟨left, cleanL⟩ := toIndex_childLeft bits clean
  obtain ⟨right, cleanR⟩ := toIndex_childRight bits clean
  obtain ⟨m₁, runL, ok₁, same⟩ := getHashOrEmpty_agree ok agree.childLeft cleanL short
  obtain ⟨m₂, runR, -, -⟩ := getHashOrEmpty_agree ok₁ agree.childRight cleanR short
  refine ⟨m₂, ?_⟩
  rw [getChildHashes, runL, ok_bind]
  dsimp only
  rw [runR, same, hashAtAddr, hashAtAddr, left, right, ← agree.toIndex short.le]
  rfl

theorem filterMap_iterChildren (short : addr.length ≤ LEDGER_DEPTH)
    (clear : addr.length < LEDGER_DEPTH → addr.FirstClear) :
    ((addr.iterChildren LEDGER_DEPTH).filterMap fun leaf => m.get leaf) =
      (List.range' (addr.toIndex * 2 ^ (LEDGER_DEPTH - addr.length))
        (2 ^ (LEDGER_DEPTH - addr.length))).filterMap m.view := by
  rw [← iterChildren_toIndex short clear, filterMap_map]
  exact filterMap_congr fun leaf _ => get_eq leaf m

theorem getAllAccountsRootedAt_getD (depth : m.depth = LEDGER_DEPTH) (short : addr.length ≤ LEDGER_DEPTH) :
    (getAllAccountsRootedAt addr m).getD [] = (addr.iterChildren LEDGER_DEPTH).filterMap fun leaf => m.get leaf := by
  rw [getAllAccountsRootedAt, depth, if_neg (not_lt.2 short)]
  dsimp only
  split
  · next none => exact (List.isEmpty_iff.1 none).symm
  · rfl

theorem read_right (ok : m.Answers V LEDGER_DEPTH m.lastAccount) {query : LedgerQuery Address} (proper : Proper query) :
    ∃ response m', read V m query = .ok (response, m') ∧ Right V m query response := by
  have depth : m.depth = LEDGER_DEPTH := ok.depth
  cases query with
  | numAccounts =>
    obtain ⟨height, tall, fits, -⟩ := treeHeight_spec (numAccounts_le ok)
    obtain ⟨m', run⟩ := getNumAccounts_spec ok fits tall
    exact ⟨.getNumAccounts (some (m.numAccounts, V.nodeHash m.view height 0)), m', by rw [read, run]; rfl,
      height, tall, rfl⟩
  | whatChildHashes addr =>
    obtain ⟨short, clear⟩ := proper
    obtain ⟨m', run⟩ := getChildHashes_right ok short clear
    have bits : ¬ nbits ≤ addr.length := not_le.2 (short.trans (by decide))
    refine ⟨_, m', by rw [read, if_neg bits, run]; rfl, ?_⟩
    rw [Right, if_pos short]
  | whatContents addr =>
    refine ⟨_, m, rfl, ?_⟩
    rcases proper with ⟨-, short, clear⟩ | ⟨long, -⟩
    · rw [Right, if_pos short, getAllAccountsRootedAt_getD depth short.le,
        filterMap_iterChildren short.le fun _ => clear]
    · rw [Right, if_neg (not_lt.2 long.le), getAllAccountsRootedAt, depth, if_pos long]

end

/-! ## Queries that are not proper -/

section
open SnarkedSync
variable {addr : Address} {p : ℕ}

theorem lone_holding (inside : p < 2 ^ LEDGER_DEPTH) : ∃ db, holding p = .root db ∧ Lone free LEDGER_DEPTH p db := by
  have index : (Address.fromIndex p LEDGER_DEPTH).toIndex = p := toIndex_fromIndex inside (by decide)
  refine ⟨_, rfl, rfl, ?_, rfl, fun j ne => ?_⟩
  · exact HashesMatrix.sound_new.invalidateHashes (by decide) (index.symm ▸ inside) fun _ _ => rfl
  · rw [Database.getAtIndex_set, index, if_neg ne]
    rfl

theorem first_inside (short : addr.length ≤ LEDGER_DEPTH) :
    addr.toIndex * 2 ^ (LEDGER_DEPTH - addr.length) < 2 ^ LEDGER_DEPTH := by
  have inside : addr.toIndex < 2 ^ addr.length := toIndex_lt (short.trans (by decide))
  calc addr.toIndex * 2 ^ (LEDGER_DEPTH - addr.length)
      < 2 ^ addr.length * 2 ^ (LEDGER_DEPTH - addr.length) := Nat.mul_lt_mul_of_pos_right inside (Nat.two_pow_pos _)
    _ = 2 ^ LEDGER_DEPTH := by rw [← pow_add, Nat.add_sub_cancel' short]

theorem read_long {A I F : Type} [DecidableEq I] {V : TreeVersion A I F}
    {m : MaskImpl A I F} (depth : m.depth = LEDGER_DEPTH) (long : LEDGER_DEPTH ≤ addr.length) :
    ∃ e, read V m (.whatChildHashes addr) = .error e := by
  rw [read]
  split
  · exact ⟨_, rfl⟩
  · have below : LEDGER_DEPTH < addr.childLeft.length := lt_succ_of_le long
    have missing : getHash V addr.childLeft m = .ok (none, m) := by
      rw [getHash, MaskImpl.getInnerHashAtAddr, depth, if_pos below]
      rfl
    rw [getChildHashes, getHashOrEmpty, missing, ok_bind]
    dsimp only
    rw [if_neg (not_le.2 below)]
    exact ⟨_, rfl⟩

theorem read_set {k : ℕ} (short : addr.length < LEDGER_DEPTH) (after : addr.length ≤ k) (before : k < LEDGER_DEPTH)
    (set : addr.get k = .right) {response : LedgerReadResponse ℕ Term} {m' : MaskImpl ℕ ℕ Term}
    (run : read free (holding (addr.toIndex * 2 ^ (LEDGER_DEPTH - addr.length))) (.whatChildHashes addr) =
      .ok (response, m')) :
    ¬ Right free (holding (addr.toIndex * 2 ^ (LEDGER_DEPTH - addr.length))) (.whatChildHashes addr) response := by
  have inside := first_inside short.le
  have view := view_holding inside
  obtain ⟨db, eq, lone⟩ := lone_holding inside
  set p := addr.toIndex * 2 ^ (LEDGER_DEPTH - addr.length) with first
  have depth : LEDGER_DEPTH = 35 := rfl
  have off : addr.childLeft.Off LEDGER_DEPTH p := by
    refine ⟨LEDGER_DEPTH - 1 - k, ?_, ?_⟩
    · rw [first, Nat.mul_comm, testBit_two_pow_mul]
      have : ¬ LEDGER_DEPTH - addr.length ≤ LEDGER_DEPTH - 1 - k := by omega
      simp [this]
    · have bit : nbits - LEDGER_DEPTH + (LEDGER_DEPTH - 1 - k) = nbits - 1 - k := by
        have : nbits = 40 := rfl
        omega
      rw [bit]
      show addr.inner.getLsbD (nbits - 1 - k) = true
      by_contra clear
      rw [Address.get, if_neg clear] at set
      cases set
  obtain ⟨db', found, -⟩ := lone.getHash (a := addr.childLeft) short off
  have left : getHashOrEmpty free addr.childLeft (.root db) =
      .ok (free.emptyHashAtHeight (LEDGER_DEPTH - (addr.length + 1)), .root db') := by
    rw [getHashOrEmpty, found]
    rfl
  have bits : ¬ nbits ≤ addr.length := not_le.2 (short.trans (by decide))
  rw [eq, read, if_neg bits] at run
  obtain ⟨⟨⟨l, r⟩, m₁⟩, hashes, run⟩ := bind_eq_ok.1 run
  cases run
  obtain ⟨⟨l', m₂⟩, left', hashes⟩ := bind_eq_ok.1 (ofService_eq_ok.1 hashes)
  obtain ⟨⟨r', m₃⟩, -, hashes⟩ := bind_eq_ok.1 hashes
  cases hashes
  cases left.symm.trans left'
  intro right
  rw [Right, if_pos short] at right
  refine node_ne_empty ?_ (by rw [view, update_self]) (Prod.mk.inj (Option.some.inj right)).1.symm
  obtain ⟨h, half⟩ : ∃ h, LEDGER_DEPTH - addr.length = h + 1 := ⟨LEDGER_DEPTH - addr.length - 1, by omega⟩
  have height : LEDGER_DEPTH - (addr.length + 1) = h := by omega
  rw [first, half, height, pow_succ, Nat.mul_comm (2 ^ h), ← mul_assoc,
    Nat.mul_div_cancel _ (Nat.two_pow_pos _), Nat.mul_comm]

theorem contents_leaf (leaf : addr.length = LEDGER_DEPTH) : ¬ Right free (holding addr.toIndex) (.whatContents addr)
    (.getChildAccountsAtAddr (getAllAccountsRootedAt addr (holding addr.toIndex))) := by
  have inside : addr.toIndex < 2 ^ LEDGER_DEPTH := leaf ▸ toIndex_lt (leaf ▸ by decide)
  have one : 2 ^ (LEDGER_DEPTH - addr.length) = 1 := by
    rw [leaf]
    rfl
  have given := getAllAccountsRootedAt_getD (answers_holding inside).depth leaf.le
  rw [filterMap_iterChildren leaf.le (fun inner => absurd leaf inner.ne), one, view_holding inside] at given
  intro right
  rw [Right, if_neg leaf.not_lt] at right
  rw [right] at given
  simp at given

theorem contents_set (short : addr.length < LEDGER_DEPTH) (set : ¬ addr.FirstClear) :
    ¬ Right free (holding (addr.toIndex * 2 ^ (LEDGER_DEPTH - addr.length))) (.whatContents addr)
      (.getChildAccountsAtAddr
        (getAllAccountsRootedAt addr (holding (addr.toIndex * 2 ^ (LEDGER_DEPTH - addr.length))))) := by
  have inside := first_inside short.le
  have view := view_holding inside
  have given := getAllAccountsRootedAt_getD (answers_holding inside).depth short.le
  have none : ((addr.iterChildren LEDGER_DEPTH).filterMap fun leaf =>
      (holding (addr.toIndex * 2 ^ (LEDGER_DEPTH - addr.length))).get leaf) = [] := by
    rw [filterMap_eq_nil_iff]
    intro leaf mem
    have after := lt_of_mem_iterChildren short set mem
    rw [get_eq, view, update_of_ne after.ne']
  intro right
  rw [Right, if_pos short, given, none] at right
  have missing := filterMap_eq_nil_iff.1 right.symm (addr.toIndex * 2 ^ (LEDGER_DEPTH - addr.length))
    (List.mem_range'_1.2 ⟨le_rfl, Nat.lt_add_of_pos_right (Nat.two_pow_pos _)⟩)
  rw [view, update_self] at missing
  cases missing

end

/-! ## The queries that are handled -/

/-- A query is added to the queue, answered right, and the answer finds the peers that wait. -/
def Answered {A I F H P : Type} [DecidableEq I] [DecidableEq H]
    (V : TreeVersion A I F) (m : MaskImpl A I F) (state : LedgerReadState H)
    (remote : List (P × H × LedgerQuery WireAddress)) (hash : H) (query : LedgerQuery Address) : Prop :=
  (∃ s, state.init hash query = .ok s) ∧
  (∃ response m', read V m query = .ok (response, m') ∧ Right V m query response) ∧
  ∃ peers, findPeersWithLedgerRpc hash query remote = .ok peers

theorem Proper.fits {query : LedgerQuery Address} (proper : Proper query) : query.Fits := by
  have room : LEDGER_DEPTH ≤ nbits := by decide
  cases query with
  | numAccounts => trivial
  | whatChildHashes addr => exact proper.1.le.trans room
  | whatContents addr =>
    rcases proper with ⟨-, short, -⟩ | ⟨-, fits⟩
    · exact short.le.trans room
    · exact fits

theorem Proper.answered {A I F H P : Type} [DecidableEq I] [DecidableEq H] {V : TreeVersion A I F}
    {m : MaskImpl A I F} {query : LedgerQuery Address} (proper : Proper query)
    (ok : m.Answers V LEDGER_DEPTH m.lastAccount) (state : LedgerReadState H)
    (remote : List (P × H × LedgerQuery WireAddress)) (hash : H) : Answered V m state remote hash query := by
  refine ⟨init_ok state proper.fits fun addr same => ?_, read_right ok proper, findPeers_ok proper.fits remote⟩
  subst same
  rcases proper with ⟨deep, -⟩ | ⟨long, -⟩
  · exact deep
  · exact (by decide : 4 ≤ LEDGER_DEPTH).trans long.le

/-- **The ledger queries of peers.**  A query as it comes from the wire is added to every queue,
    answered right from every ledger, and its answer finds the peers that wait for it, exactly
    when it is `Proper`. -/
theorem query_served_iff (query : LedgerQuery WireAddress) :
    (∀ (A I F H P : Type) [DecidableEq I] [DecidableEq H] (V : TreeVersion A I F) (m : MaskImpl A I F),
      m.Answers V LEDGER_DEPTH m.lastAccount → ∀ (state : LedgerReadState H)
      (remote : List (P × H × LedgerQuery WireAddress)) (hash : H),
      Answered V m state remote hash query.decode) ↔ Proper query.decode := by
  refine ⟨fun all => ?_, fun proper _ _ _ _ _ _ _ _ _ ok state remote hash => proper.answered ok state remote hash⟩
  -- the ledgers and the queues that show what goes wrong
  have served : ∀ (p : ℕ), p < 2 ^ LEDGER_DEPTH → ∀ pending : List (LedgerReadRequest Unit),
      Answered SnarkedSync.free (SnarkedSync.holding p) ⟨pending, 0⟩
        ([] : List (Unit × Unit × LedgerQuery WireAddress)) () query.decode := fun p inside pending =>
    all ℕ ℕ SnarkedSync.Term Unit Unit SnarkedSync.free _ (SnarkedSync.answers_holding inside) ⟨pending, 0⟩ [] ()
  cases decoded : query.decode with
  | numAccounts => trivial
  | whatChildHashes addr =>
    rw [decoded] at served
    have short : addr.length < LEDGER_DEPTH := by
      by_contra long
      obtain ⟨-, ⟨_, _, run, -⟩, -⟩ := served 0 (by decide) []
      obtain ⟨_, stops⟩ := read_long (V := SnarkedSync.free)
        (SnarkedSync.answers_holding (i := 0) (by decide)).depth (not_lt.1 long)
      cases run.symm.trans stops
    refine ⟨short, fun k after before => ?_⟩
    cases bit : addr.get k with
    | left => rfl
    | right =>
      obtain ⟨-, ⟨_, _, run, right⟩, -⟩ := served _ (first_inside short.le) []
      exact absurd right (read_set short after before bit run)
  | whatContents addr =>
    rw [decoded] at served
    have deep : 4 ≤ addr.length := by
      by_contra shallow
      obtain ⟨⟨_, run⟩, -, -⟩ := served 0 (by decide) []
      have large : ¬ 2 ^ (LEDGER_DEPTH - addr.length) < 2 ^ 32 := by
        refine not_lt.2 (Nat.pow_le_pow_right (by decide) ?_)
        have : LEDGER_DEPTH = 35 := rfl
        omega
      have stops : (LedgerQuery.whatContents addr).cost = .error .overflow := if_neg large
      rw [LedgerReadState.init, hasSameRequest, ok_bind, stops] at run
      cases run
    rcases lt_trichotomy addr.length LEDGER_DEPTH with short | leaf | long
    · refine .inl ⟨deep, short, ?_⟩
      by_contra set
      obtain ⟨-, ⟨_, _, run, right⟩, -⟩ := served _ (first_inside short.le) []
      cases run
      exact contents_set short set right
    · have inside : addr.toIndex < 2 ^ LEDGER_DEPTH := leaf ▸ toIndex_lt (leaf ▸ by decide)
      obtain ⟨-, ⟨_, _, run, right⟩, -⟩ := served _ inside []
      cases run
      exact absurd right (contents_leaf leaf)
    · refine .inr ⟨long, ?_⟩
      by_contra out
      obtain ⟨⟨_, run⟩, -, -⟩ := served 0 (by decide) [.query () (.whatContents addr)]
      have used : ¬ addr.nusedBytes ≤ 5 := by
        have : nbits = 40 := rfl
        rw [nusedBytes]
        omega
      have stops : sameAddress addr addr = .error .indexOutOfBounds := by
        rw [sameAddress, if_neg (by simp), if_neg used, if_neg (by simp)]
      have cheap : ¬ MAX_TOTAL_COST ≤ 0 := by decide
      rw [LedgerReadState.init, hasSameRequest, sameQuery, stops] at run
      cases run

/-- Queries that stop the node: hashes at depth `35`, where the hash of an empty node at depth
    `36` is looked up; accounts at depth `0`, whose cost is `2 ^ 35 / 4`; accounts at depth
    `41`, once such a query is pending.  And the accounts at depth `34` by an address with the
    next bit set: the first of two accounts is left out. -/
theorem query_fails :
    read SnarkedSync.sums (.root (.create LEDGER_DEPTH)) (LedgerQuery.whatChildHashes ⟨35, []⟩).decode =
      .error (.service .service) ∧
    LedgerReadState.init (⟨[], 0⟩ : LedgerReadState Unit) () (LedgerQuery.whatContents ⟨0, []⟩).decode =
      .error .overflow ∧
    LedgerReadState.init (⟨[.query () (LedgerQuery.whatContents ⟨41, []⟩).decode], 0⟩ : LedgerReadState Unit) ()
      (LedgerQuery.whatContents ⟨41, []⟩).decode = .error .indexOutOfBounds ∧
    ∃ m : MaskImpl ℕ ℕ ℕ, (∀ j, m.view j = [some 5, some 7][j]?.join) ∧
      ∃ m', read SnarkedSync.sums m (LedgerQuery.whatContents ⟨34, [0, 0, 0, 0, 32]⟩).decode =
        .ok (.getChildAccountsAtAddr (some [7]), m') := by
  refine ⟨rfl, rfl, rfl, ?_⟩
  let one := (MaskImpl.root (.create LEDGER_DEPTH) : MaskImpl ℕ ℕ ℕ).set SnarkedSync.sums (.fromIndex 0 LEDGER_DEPTH) 5
  let two := one.set SnarkedSync.sums (.fromIndex 1 LEDGER_DEPTH) 7
  have contents : getAllAccountsRootedAt (⟨34, [0, 0, 0, 0, 32]⟩ : WireAddress).toAddress two = some [7] := by decide +kernel
  exact ⟨two, fun _ => rfl, two, by rw [LedgerQuery.decode, read, contents]⟩

end MinaRust.LedgerRead
