/-
  The collection of the pending coinbase stacks (`PendingCoinbase` of `pending_coinbase.rs`).

  The stacks stand in a Merkle tree of depth five, each under a `StackId`.  The ids in use
  are in `posList`, the oldest first; `newPos` is the id of the next new stack.  A `Table` is
  the collection without its tree, and each operation refines one of the table.
-/
import MinaRust.PendingCoinbase.MiniMerkleTree
import MinaRust.PendingCoinbase.Stack

set_option linter.dupNamespace false

namespace MinaRust.PendingCoinbase

open Ledger List Function Nat

variable {Pk F : Type}

abbrev StackId : Type := ℕ

def StackId.incrByOne (id : StackId) : Except Panic StackId :=
  okOr .unwrapNone (if id + 1 < 2 ^ 64 then some (id + 1) else none)

structure PendingCoinbase (F : Type) where
  tree : MiniMerkleTree StackId (Stack F) F
  posList : List StackId
  newPos : StackId

/-- `constraint_constants.pending_coinbase_depth`, the same on all networks. -/
def pendingCoinbaseDepth : ℕ := 5

/-- The places of the keys in the tree, as in the OCaml implementation. -/
def ocamlIndexes : List (ℕ × ℕ) :=
  [(31, 31), (30, 15), (29, 23), (28, 7), (27, 27), (26, 11), (25, 19), (24, 3),
    (23, 29), (22, 13), (21, 21), (20, 5), (19, 25), (18, 9), (17, 17), (16, 1),
    (15, 30), (14, 14), (13, 22), (12, 6), (11, 26), (10, 10), (9, 18), (8, 2),
    (7, 28), (6, 12), (5, 20), (4, 4), (3, 24), (2, 8), (1, 16), (0, 0)]

def fillStep {K V : Type} [DecidableEq K] (t : MiniMerkleTree K V F) (e : (K × V) × ℕ) :
    Except Panic (MiniMerkleTree K V F) := do
  let index ← okOr .unwrapNone (ocamlIndexes.lookup e.2)
  .ok { t with
    values := t.values ++ [e.1.2]
    indexes := t.indexes.insert e.1.1 (.fromIndex index t.depth) }

def fillWith {K V : Type} [DecidableEq K] (data : List (K × V)) (t : MiniMerkleTree K V F) :
    Except Panic (MiniMerkleTree K V F) := do
  ensure .locationMismatch (t.values = [])
  ensure .locationMismatch (t.depth = 5)
  data.zipIdx.foldlM fillStep t

section
variable (H : Hasher Pk F)

def stackHasher : TreeHasher (Stack F) F where
  hashValue := Stack.hashValue H
  emptyValue := Stack.empty H
  mergeHash := H.mergeHash

namespace PendingCoinbase

def create (depth : ℕ) : Except Panic (PendingCoinbase F) := do
  ensure .locationMismatch (depth = 5)
  let tree ← fillWith ((List.range (2 ^ depth)).map fun id => (id, Stack.empty H)) (.create depth)
  .ok { tree := tree, posList := [], newPos := 0 }

def merkleRoot (pc : PendingCoinbase F) : Except Panic (F × PendingCoinbase F) := do
  let (root, tree) ← pc.tree.merkleRoot (stackHasher H)
  .ok (root, { pc with tree := tree })

variable (pc : PendingCoinbase F) (depth : ℕ) (addr : Address)

def getStack : Except Panic (Stack F) := pc.tree.getExn addr

def path (addr : Address) (pc : PendingCoinbase F) :
    Except Panic (List (MerklePath F) × PendingCoinbase F) := do
  let (path, tree) ← pc.tree.pathExn (stackHasher H) addr
  .ok (path, { pc with tree := tree })

def findIndex (key : StackId) : Except Panic Address := pc.tree.findIndexExn key

def nextIndex : Except Panic StackId :=
  if pc.newPos = 2 ^ depth - 1 then .ok 0 else pc.newPos.incrByOne

variable (isNewStack : Bool)

def nextStackId : Except Panic StackId :=
  if isNewStack then pc.nextIndex depth else .ok pc.newPos

def incrIndex (pc : PendingCoinbase F) : Except Panic (PendingCoinbase F) :=
  if isNewStack then do
    let newPos ← pc.nextIndex depth
    .ok { pc with posList := pc.posList ++ [pc.newPos], newPos := newPos }
  else .ok pc

def setStack [DecidableEq F] (stack : Stack F) (isNewStack : Bool) (pc : PendingCoinbase F) :
    Except Panic (PendingCoinbase F) := do
  let tree ← pc.tree.setExn addr stack
  { pc with tree := tree }.incrIndex depth isNewStack

def latestStackId : StackId :=
  if isNewStack then pc.newPos else pc.posList.getLast?.getD 0

def currentStackId : Option StackId := pc.posList.getLast?

def currentStack : Except Panic (Stack F) := do
  let prevStackId := pc.currentStackId.getD 0
  let addr ← pc.tree.findIndexExn prevStackId
  pc.tree.getExn addr

def latestStack : Except Panic (Stack F) := do
  let key := pc.latestStackId isNewStack
  let addr ← pc.tree.findIndexExn key
  let res ← pc.tree.getExn addr
  if isNewStack then
    let prevStack ← pc.currentStack
    .ok { res with state := .create prevStack.state.curr }
  else .ok res

def oldestStackId : Option StackId := pc.posList.head?

section
variable [DecidableEq F]

def updateStack (depth : ℕ) (isNewStack : Bool) (fun_ : Stack F → Stack F) (pc : PendingCoinbase F) :
    Except Panic (PendingCoinbase F) := do
  let key := pc.latestStackId isNewStack
  let stackAddr ← pc.findIndex key
  let stackBefore ← pc.getStack stackAddr
  let stackAfter := fun_ stackBefore
  pc.setStack depth stackAddr stackAfter isNewStack

def updateCoinbaseStack (depth : ℕ) (stack : Stack F) (isNewStack : Bool) (pc : PendingCoinbase F) :
    Except Panic (PendingCoinbase F) :=
  pc.updateStack depth isNewStack fun _ => stack

/-- The result is `none` when there is "No coinbase stack-with-state-hash to pop". -/
def removeCoinbaseStack (depth : ℕ) (pc : PendingCoinbase F) :
    Except Panic (Option (Stack F × PendingCoinbase F)) :=
  match pc.posList with
  | [] => .ok none
  | oldestStackId :: posList => do
    let pc := { pc with posList := posList }
    let stackAddr ← pc.findIndex oldestStackId
    let stack ← pc.getStack stackAddr
    let pc ← pc.setStack depth stackAddr (.empty H) false
    .ok (some (stack, pc))

end

end PendingCoinbase

/-! ## The stacks by their ids -/

def place (k : ℕ) : ℕ := (ocamlIndexes.lookup k).getD 0

theorem place_lt : ∀ k < 32, place k < 32 := by decide

theorem place_place : ∀ k < 32, place (place k) = k := by decide

theorem place_injective {k l : ℕ} (hk : k < 32) (hl : l < 32) (eq : place k = place l) : k = l := by
  rw [← place_place k hk, eq, place_place l hl]

def addressOf (k : ℕ) : Address := .fromIndex (place k) 5

theorem addressOf_length (k : ℕ) : (addressOf k).length = 5 := rfl

theorem addressOf_toIndex {k : ℕ} (hk : k < 32) : (addressOf k).toIndex = place k :=
  Address.toIndex_fromIndex (place_lt k hk) (by decide)

variable {H}

/-- The tree is sound and holds the stack `T k` under the id `k`. -/
structure Holds (H : Hasher Pk F) (tree : MiniMerkleTree StackId (Stack F) F) (T : ℕ → Stack F) : Prop where
  sound : tree.Sound (stackHasher H) 5
  index : ∀ k < 32, tree.indexes.lookup k = some (addressOf k)
  stack : ∀ k < 32, tree.view (place k) = some (T k)

def rootOf (H : Hasher Pk F) (T : ℕ → Stack F) : F :=
  Merkle.hashAt H.mergeHash (fun j => (T (place j)).hashValue H) 5 0

variable {tree tree' : MiniMerkleTree StackId (Stack F) F} {T : ℕ → Stack F} {k : ℕ}

theorem Holds.leaf (h : Holds H tree T) {j : ℕ} (hj : j < 32) : tree.view j = some (T (place j)) := by
  have at_place := h.stack (place j) (place_lt j hj)
  rwa [place_place j hj] at at_place

theorem Holds.like (h : Holds H tree T) (l : MiniMerkleTree.Like (stackHasher H) 5 tree tree') :
    Holds H tree' T where
  sound := l.sound
  index k hk := by rw [l.indexes, h.index k hk]
  stack k hk := by rw [l.view, h.stack k hk]

theorem Holds.findIndexExn (h : Holds H tree T) (hk : k < 32) : tree.findIndexExn k = .ok (addressOf k) := by
  rw [MiniMerkleTree.findIndexExn, h.index k hk]
  rfl

theorem Holds.getExn (h : Holds H tree T) (hk : k < 32) : tree.getExn (addressOf k) = .ok (T k) :=
  h.sound.getExn (addressOf_length k) (by rw [addressOf_toIndex hk, h.stack k hk])

theorem Holds.setExn [DecidableEq F] (h : Holds H tree T) (hk : k < 32) (stack : Stack F) :
    ∃ tree', tree.setExn (addressOf k) stack = .ok tree' ∧ Holds H tree' (Function.update T k stack) := by
  obtain ⟨tree', eq, sound, indexes, views⟩ :=
    h.sound.setExn (by decide) (addressOf_length k) stack
  refine ⟨tree', eq, sound, fun l hl => by rw [indexes, h.index l hl], fun l hl => ?_⟩
  rw [views, addressOf_toIndex hk, h.stack l hl]
  by_cases eq : l = k
  · rw [if_pos (by rw [eq]), eq, update_self]
  · rw [if_neg fun same => eq (place_injective hl hk same), update_of_ne eq]

theorem Holds.leafHash (h : Holds H tree T) {j : ℕ} (hj : j < 32) :
    (stackHasher H).version.leafHash (tree.view j) = (T (place j)).hashValue H := by
  rw [h.leaf hj]
  rfl

theorem Holds.merkleRoot (h : Holds H tree T) :
    ∃ tree', tree.merkleRoot (stackHasher H) = .ok (rootOf H T, tree') ∧ Holds H tree' T := by
  obtain ⟨tree', eq, l⟩ := h.sound.merkleRoot (by decide)
  refine ⟨tree', ?_, h.like l⟩
  rw [eq, rootOf, TreeVersion.nodeHash]
  congr 2
  exact Merkle.hashAt_congr fun j hj => h.leafHash (by omega)

/-! ## Paths -/

/-- `checked_verify_merkle_path`: the root that a path gives for a stack. -/
def checkedVerifyMerklePath (H : Hasher Pk F) (account : Stack F) (merklePath : List (MerklePath F)) : F :=
  merklePath.zipIdx.foldl (fun accum e => match e.1 with
    | .left right => H.mergeHash e.2 accum right
    | .right left => H.mergeHash e.2 left accum) (account.hashValue H)

theorem foldl_eq_climb : ∀ (path : List (MerklePath F)) (h : ℕ) (x : F),
    (path.zipIdx h).foldl (fun accum e => match e.1 with
      | .left right => H.mergeHash e.2 accum right
      | .right left => H.mergeHash e.2 left accum) x = Merkle.climb H.mergeHash h x path
  | [], _, _ => rfl
  | .left _ :: path, h, _ => foldl_eq_climb path (h + 1) _
  | .right _ :: path, h, _ => foldl_eq_climb path (h + 1) _

theorem descend_addressOf (hk : k < 32) :
    Merkle.descend 0 ((addressOf k).directions.map Direction.bit) = place k := by
  rw [Address.descend_directions (show 5 ≤ nbits by decide), addressOf_toIndex hk]

theorem Holds.pathExn (h : Holds H tree T) (hk : k < 32) :
    ∃ path tree', tree.pathExn (stackHasher H) (addressOf k) = .ok (path, tree') ∧ Holds H tree' T ∧
      ∀ stack, checkedVerifyMerklePath H stack path = rootOf H (Function.update T k stack) := by
  obtain ⟨tree', eq, l⟩ := h.sound.pathExn (by decide) (addressOf_length k)
  refine ⟨_, tree', eq, h.like l, fun stack => ?_⟩
  have length : ((addressOf k).directions.map Direction.bit).length = 5 := by
    rw [length_map, Address.directions, length_map, length_range]
    rfl
  have same : ∀ j, j / 2 ^ ((addressOf k).directions.map Direction.bit).length = 0 →
      j ≠ Merkle.descend 0 ((addressOf k).directions.map Direction.bit) →
      (stackHasher H).version.leafHash (tree.view j) = (Function.update T k stack (place j)).hashValue H := by
    intro j hj ne
    rw [length] at hj
    have hj : j < 32 := by omega
    rw [descend_addressOf hk] at ne
    rw [h.leafHash hj, update_of_ne fun same => ne (by rw [← same, place_place j hj])]
  have climbed : Merkle.climb H.mergeHash 0 _ _ = _ := Merkle.climb_update same
  simp only [length, descend_addressOf hk, place_place k hk, update_self] at climbed
  rw [checkedVerifyMerklePath, foldl_eq_climb]
  exact climbed

/-! ## The collection as a table -/

/-- The stacks by their ids, the ids in use and the next one. -/
structure Table (F : Type) where
  stackAt : ℕ → Stack F
  posList : List ℕ
  newPos : ℕ
  posList_lt : ∀ k ∈ posList, k < 32
  newPos_lt : newPos < 32

namespace Table

def next (k : ℕ) : ℕ := (k + 1) % 32

theorem next_lt (k : ℕ) : next k < 32 := mod_lt _ (by decide)

def currentId (t : Table F) : ℕ := t.posList.getLast?.getD 0

def oldestId (t : Table F) : ℕ := t.posList.head?.getD 0

def latestId (t : Table F) (isNewStack : Bool) : ℕ := if isNewStack then t.newPos else t.currentId

def nextId (t : Table F) (isNewStack : Bool) : ℕ := if isNewStack then next t.newPos else t.newPos

def put (t : Table F) (k : ℕ) (stack : Stack F) : Table F :=
  { t with stackAt := Function.update t.stackAt k stack }

/-- The next id comes into use when the stack is a new one. -/
def advance (t : Table F) (isNewStack : Bool) : Table F :=
  if isNewStack then
    { t with
      posList := t.posList ++ [t.newPos]
      newPos := next t.newPos
      posList_lt := fun k hk => (mem_append.1 hk).elim (t.posList_lt k) fun hk =>
        mem_singleton.1 hk ▸ t.newPos_lt
      newPos_lt := next_lt _ }
  else t

/-- A new stack starts from the state of the current one. -/
def latest (t : Table F) (isNewStack : Bool) : Stack F :=
  if isNewStack then { t.stackAt t.newPos with state := .create (t.stackAt t.currentId).state.curr }
  else t.stackAt t.currentId

def dropOldest (t : Table F) : Table F :=
  { t with
    posList := t.posList.tail
    posList_lt := fun k hk => t.posList_lt k (mem_of_mem_tail hk) }

variable (t : Table F)

theorem currentId_lt : t.currentId < 32 := by
  rw [currentId]
  cases h : t.posList.getLast? with
  | none => exact zero_lt_succ _
  | some k => exact t.posList_lt k (mem_of_getLast? h)

theorem oldestId_lt : t.oldestId < 32 := by
  rw [oldestId]
  cases h : t.posList.head? with
  | none => exact zero_lt_succ _
  | some k => exact t.posList_lt k (mem_of_mem_head? h)

variable (isNewStack : Bool)

theorem latestId_lt : t.latestId isNewStack < 32 := by
  cases isNewStack with
  | false => exact t.currentId_lt
  | true => exact t.newPos_lt

theorem nextId_lt : t.nextId isNewStack < 32 := by
  cases isNewStack with
  | false => exact t.newPos_lt
  | true => exact next_lt _

@[simp] theorem advance_stackAt : (t.advance isNewStack).stackAt = t.stackAt := by
  cases isNewStack <;> rfl

@[simp] theorem put_advance_stackAt (k : ℕ) (stack : Stack F) :
    ((t.advance isNewStack).put k stack).stackAt = (t.put k stack).stackAt := by
  cases isNewStack <;> rfl

@[simp] theorem put_same (k : ℕ) : t.put k (t.stackAt k) = t := by
  rw [put, update_eq_self]

end Table

/-- The collection is the table, with its stacks in the tree. -/
structure Refines (H : Hasher Pk F) (pc : PendingCoinbase F) (t : Table F) : Prop where
  holds : Holds H pc.tree t.stackAt
  posList : pc.posList = t.posList
  newPos : pc.newPos = t.newPos

namespace Refines

variable {pc : PendingCoinbase F} {t : Table F} (r : Refines H pc t)

include r

theorem findIndex (hk : k < 32) : pc.findIndex k = .ok (addressOf k) := r.holds.findIndexExn hk

theorem getStack (hk : k < 32) : pc.getStack (addressOf k) = .ok (t.stackAt k) := r.holds.getExn hk

theorem latestStackId (isNewStack : Bool) : pc.latestStackId isNewStack = t.latestId isNewStack := by
  rw [PendingCoinbase.latestStackId, Table.latestId, r.posList, r.newPos]
  rfl

theorem oldestStackId : pc.oldestStackId.getD 0 = t.oldestId := by
  rw [PendingCoinbase.oldestStackId, r.posList]
  rfl

theorem nextIndex : pc.nextIndex pendingCoinbaseDepth = .ok (Table.next t.newPos) := by
  have lt := t.newPos_lt
  rw [PendingCoinbase.nextIndex, r.newPos, Table.next]
  split
  · next last =>
    have last : t.newPos = 31 := last
    rw [last]
  · next ne =>
    have ne : t.newPos ≠ 31 := ne
    have fits : t.newPos + 1 < 2 ^ 64 := by omega
    rw [StackId.incrByOne, if_pos fits, mod_eq_of_lt (by omega)]
    rfl

theorem nextStackId (isNewStack : Bool) :
    pc.nextStackId pendingCoinbaseDepth isNewStack = .ok (t.nextId isNewStack) := by
  rw [PendingCoinbase.nextStackId, r.nextIndex, r.newPos, Table.nextId]
  cases isNewStack <;> rfl

theorem incrIndex (isNewStack : Bool) :
    ∃ pc', pc.incrIndex pendingCoinbaseDepth isNewStack = .ok pc' ∧ Refines H pc' (t.advance isNewStack) := by
  cases isNewStack with
  | false => exact ⟨pc, rfl, r⟩
  | true =>
    refine ⟨{ pc with posList := pc.posList ++ [pc.newPos], newPos := Table.next t.newPos }, ?_, r.holds, ?_, rfl⟩
    · simp [PendingCoinbase.incrIndex, r.nextIndex, ok_bind]
    · show pc.posList ++ [pc.newPos] = t.posList ++ [t.newPos]
      rw [r.posList, r.newPos]

theorem setStack [DecidableEq F] (hk : k < 32) (stack : Stack F) (isNewStack : Bool) :
    ∃ pc', pc.setStack pendingCoinbaseDepth (addressOf k) stack isNewStack = .ok pc' ∧
      Refines H pc' ((t.put k stack).advance isNewStack) := by
  obtain ⟨tree, eq, holds⟩ := r.holds.setExn hk stack
  have put : Refines H { pc with tree := tree } (t.put k stack) := ⟨holds, r.posList, r.newPos⟩
  obtain ⟨pc', advanced, r'⟩ := put.incrIndex isNewStack
  exact ⟨pc', by rw [PendingCoinbase.setStack, eq, ok_bind, advanced], r'⟩

theorem currentStack : pc.currentStack = .ok (t.stackAt t.currentId) := by
  have id : pc.currentStackId.getD 0 = t.currentId := by
    rw [PendingCoinbase.currentStackId, r.posList]
    rfl
  simp [PendingCoinbase.currentStack, id, r.holds.findIndexExn t.currentId_lt, ok_bind, r.holds.getExn t.currentId_lt]

theorem latestStack (isNewStack : Bool) : pc.latestStack isNewStack = .ok (t.latest isNewStack) := by
  simp only [PendingCoinbase.latestStack, r.latestStackId, r.currentStack,
    r.holds.findIndexExn (t.latestId_lt _), ok_bind, r.holds.getExn (t.latestId_lt _)]
  cases isNewStack <;> rfl

theorem updateCoinbaseStack [DecidableEq F] (stack : Stack F) (isNewStack : Bool) :
    ∃ pc', pc.updateCoinbaseStack pendingCoinbaseDepth stack isNewStack = .ok pc' ∧
      Refines H pc' ((t.put (t.latestId isNewStack) stack).advance isNewStack) := by
  obtain ⟨pc', eq, r'⟩ := r.setStack (t.latestId_lt isNewStack) stack isNewStack
  refine ⟨pc', ?_, r'⟩
  simp [PendingCoinbase.updateCoinbaseStack, PendingCoinbase.updateStack, r.latestStackId, r.findIndex (t.latestId_lt _), r.getStack (t.latestId_lt _), ok_bind, eq]

theorem removeCoinbaseStack_nil [DecidableEq F] (none : t.posList = []) :
    pc.removeCoinbaseStack H pendingCoinbaseDepth = .ok .none := by
  rw [PendingCoinbase.removeCoinbaseStack, r.posList, none]

theorem removeCoinbaseStack [DecidableEq F] (some : t.posList ≠ []) :
    ∃ pc', pc.removeCoinbaseStack H pendingCoinbaseDepth = .ok (.some (t.stackAt t.oldestId, pc')) ∧
      Refines H pc' (t.dropOldest.put t.oldestId (.empty H)) := by
  obtain ⟨k, posList, cons⟩ := exists_cons_of_ne_nil some
  have oldest : t.oldestId = k := by
    rw [Table.oldestId, cons]
    rfl
  have hk : k < 32 := oldest ▸ t.oldestId_lt
  have rest : Refines H { pc with posList := posList } t.dropOldest :=
    ⟨r.holds, (congrArg List.tail cons).symm, r.newPos⟩
  obtain ⟨pc', eq, r'⟩ := rest.setStack hk (.empty H) false
  refine ⟨pc', ?_, by rw [oldest]; exact r'⟩
  rw [PendingCoinbase.removeCoinbaseStack, r.posList, cons]
  simp only [rest.findIndex hk, rest.getStack hk, ok_bind, eq, oldest]
  rfl

theorem merkleRoot : ∃ pc', pc.merkleRoot H = .ok (rootOf H t.stackAt, pc') ∧ Refines H pc' t := by
  obtain ⟨tree, eq, holds⟩ := r.holds.merkleRoot
  exact ⟨{ pc with tree := tree }, by simp only [PendingCoinbase.merkleRoot, eq, ok_bind],
    holds, r.posList, r.newPos⟩

theorem path (hk : k < 32) : ∃ path pc', pc.path H (addressOf k) = .ok (path, pc') ∧ Refines H pc' t ∧
      ∀ stack, checkedVerifyMerklePath H stack path = rootOf H (t.put k stack).stackAt := by
  obtain ⟨path, tree, eq, holds, climbs⟩ := r.holds.pathExn hk
  exact ⟨path, { pc with tree := tree }, by simp only [PendingCoinbase.path, eq, ok_bind],
    ⟨holds, r.posList, r.newPos⟩, climbs⟩

end Refines

/-! ## A new collection -/

theorem lookup_ocamlIndexes : ∀ k < 32, ocamlIndexes.lookup k = some (place k) := by decide

theorem fill_spec {V : Type} (v : V) : ∀ (len n : ℕ) (t : MiniMerkleTree StackId V F), n + len ≤ 32 → t.depth = 5 →
    ∃ t', (((List.range' n len).map fun id => (id, v)).zipIdx n).foldlM fillStep t = .ok t' ∧ t'.depth = 5 ∧
      t'.values = t.values ++ List.replicate len v ∧ t'.hashesMatrix = t.hashesMatrix ∧
      ∀ k, n ≤ k ∧ k < n + len ∨ t.indexes.lookup k = some (addressOf k) →
        t'.indexes.lookup k = some (addressOf k)
  | 0, n, t, _, depth => ⟨t, rfl, depth, by simp, rfl, fun k hk => hk.resolve_left (by omega)⟩
  | len + 1, n, t, le, depth => by
    have step : fillStep t ((n, v), n) = .ok { t with
        values := t.values ++ [v], indexes := t.indexes.insert n (addressOf n) } := by
      simp only [fillStep, lookup_ocamlIndexes n (by omega), okOr, ok_bind, depth]
      rfl
    obtain ⟨t', rest, depth', values, hashes, index⟩ := fill_spec v len (n + 1)
      { t with values := t.values ++ [v], indexes := t.indexes.insert n (addressOf n) } (by omega) depth
    refine ⟨t', ?_, depth', ?_, hashes, fun k hk => index k ?_⟩
    · rw [List.range'_succ, map_cons, zipIdx_cons, foldlM_cons, step, ok_bind, rest]
    · rw [values, append_assoc]
      rfl
    · by_cases here : k = n
      · rw [here]
        exact .inr (AList.lookup_insert _)
      · refine hk.imp (fun hk => by omega) fun hk => ?_
        rw [AList.lookup_insert_ne here]
        exact hk

theorem create_refines (H : Hasher Pk F) {t : Table F} (empty : ∀ k < 32, t.stackAt k = .empty H)
    (posList : t.posList = []) (newPos : t.newPos = 0) :
    ∃ pc, PendingCoinbase.create H pendingCoinbaseDepth = .ok pc ∧ Refines H pc t := by
  obtain ⟨tree, filled, depth, values, hashes, index⟩ := fill_spec (F := F) (Stack.empty H) 32 0 (.create 5)
    (by decide) rfl
  rw [← range_eq_range'] at filled
  have view : ∀ k < 32, tree.view (place k) = some (.empty H) := fun k hk => by
    rw [MiniMerkleTree.view, values]
    exact List.getElem?_replicate_of_lt (place_lt k hk)
  refine ⟨⟨tree, [], 0⟩, ?_, ⟨⟨depth, by rw [values]; rfl, ?_⟩, fun k hk => index k (.inl ⟨zero_le k, hk⟩), ?_⟩,
    posList.symm, newPos.symm⟩
  · have fill : fillWith ((List.range 32).map fun id => (id, Stack.empty H)) (.create 5) = .ok tree := by
      rw [fillWith, ensure_of (by rfl), ok_bind, ensure_of (by rfl), ok_bind, filled]
    exact bind_eq_ok.2 ⟨(), ensure_of rfl, bind_eq_ok.2 ⟨tree, fill, rfl⟩⟩
  · rw [hashes]
    exact HashesMatrix.sound_new
  · intro k hk
    rw [view k hk, empty k hk]

end

end MinaRust.PendingCoinbase
