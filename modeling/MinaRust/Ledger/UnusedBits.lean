/-
  Addresses with unused bits that are set.

  Bits after the depth of the tree are never looked at.  The others are taken for directions
  by `childLeft`: the nodes below such an address, as the functions that hash go through
  them, never have a direction to the left where a bit is set (`Off`), and a ledger whose
  only account lies there looks empty.
-/
import MinaRust.Ledger.SyncService

set_option linter.unusedSectionVars false

namespace MinaRust.Ledger

open Nat BitVec HashesMatrix Database Address

namespace Address

variable {a b : Address} {d k : ℕ}

/-! ## Bits after the depth -/

def Agree (d : ℕ) (a b : Address) : Prop :=
  a.length = b.length ∧ ∀ k, nbits - d ≤ k → a.inner.getLsbD k = b.inner.getLsbD k

theorem Agree.toIndex (h : a.Agree d b) (short : a.length ≤ d) : a.toIndex = b.toIndex := by
  rw [toIndex_eq, toIndex_eq, ← h.1]
  refine eq_of_testBit_eq fun i => ?_
  rw [testBit_div_two_pow, testBit_div_two_pow]
  exact h.2 _ (by omega)

theorem Agree.childLeft (h : a.Agree d b) : a.childLeft.Agree d b.childLeft :=
  ⟨congrArg (· + 1) h.1, h.2⟩

theorem Agree.childRight (h : a.Agree d b) : a.childRight.Agree d b.childRight := by
  refine ⟨congrArg (· + 1) h.1, fun k high => ?_⟩
  show (a.inner ||| BitVec.twoPow nbits (nbits - 1 - (a.length + 1 - 1))).getLsbD k =
    (b.inner ||| BitVec.twoPow nbits (nbits - 1 - (b.length + 1 - 1))).getLsbD k
  rw [getLsbD_or, getLsbD_or, h.2 k high, h.1]

def trim (d : ℕ) (a : Address) : Address :=
  { a with inner := BitVec.ofNat nbits (a.inner.toNat / 2 ^ (nbits - d) * 2 ^ (nbits - d)) }

theorem agree_trim (d : ℕ) (a : Address) : a.Agree d (a.trim d) := by
  refine ⟨rfl, fun k high => ?_⟩
  have small : a.inner.toNat / 2 ^ (nbits - d) * 2 ^ (nbits - d) < 2 ^ nbits :=
    (div_mul_le_self _ _).trans_lt a.inner.isLt
  show a.inner.toNat.testBit k = (BitVec.ofNat nbits _).toNat.testBit k
  rw [BitVec.toNat_ofNat, Nat.mod_eq_of_lt small, mul_comm, testBit_two_pow_mul, testBit_div_two_pow]
  simp [high]

end Address

variable {A I F σ : Type} {V : TreeVersion A I F} {a b : Address} {d : ℕ}

/-- A cache that looks at the level and the index of an address only. -/
def HashCache.Indexed (C : HashCache σ F) (d : ℕ) : Prop :=
  ∀ {a b : Address}, a.length ≤ d → a.Agree d b →
    (∀ s, C.getCachedHash s a = C.getCachedHash s b) ∧ ∀ s x, C.setCachedHash s a x = C.setCachedHash s b x

theorem isBefore_agree (h : a.Agree d b) (short : a.length ≤ d) (last : Address) :
    a.isBefore last = b.isBefore last := by
  rw [isBefore, isBefore, h.toIndex short, h.1]

theorem toLinearIndex_agree (h : a.Agree d b) (short : a.length ≤ d) : a.toLinearIndex = b.toLinearIndex := by
  rw [toLinearIndex, toLinearIndex, h.toIndex short, h.1]

theorem hashFromChildren_agree {C : HashCache σ F} (indexed : C.Indexed d) {last : Address} {height : ℕ}
    {deeper : Address → σ → Except Panic (F × σ)}
    (deep : ∀ {a b : Address}, a.length + height = d → a.Agree d b → deeper a = deeper b)
    (level : a.length + (height + 1) = d) (h : a.Agree d b) :
    hashFromChildren C V last height deeper a = hashFromChildren C V last height deeper b := by
  have child : ∀ {a b : Address}, a.length + height = d → a.Agree d b →
      getChildHash C last height deeper a = getChildHash C last height deeper b := by
    intro a b level h
    have short : a.length ≤ d := by omega
    funext s
    unfold getChildHash
    rw [(indexed short h).1 s, isBefore_agree h short, deep level h]
  have store : storeHash C V height a = storeHash C V height b := by
    have short : a.length ≤ d := by omega
    funext left right s
    unfold storeHash
    rw [(indexed short h).1 s]
    simp only [(indexed short h).2]
  have next : a.childLeft.length + height = d := by
    show a.length + 1 + height = d
    omega
  unfold hashFromChildren
  rw [child next h.childLeft, child (a := a.childRight) next h.childRight, store]

theorem get_agree (h : a.Agree d b) (short : a.length ≤ d) (m : HashesMatrix F) : m.get a = m.get b := by
  rw [HashesMatrix.get, HashesMatrix.get, toLinearIndex_agree h short]

theorem set_agree (h : a.Agree d b) (short : a.length ≤ d) (m : HashesMatrix F) (x : F) :
    m.set a x = m.set b x := by
  rw [HashesMatrix.set, HashesMatrix.set, toLinearIndex_agree h short]

theorem Database.indexed : (cache V).Indexed d := fun short h =>
  ⟨fun _ => get_agree h short _, fun _ _ => by
    dsimp only [cache]
    rw [set_agree h short]⟩

theorem MaskImpl.indexed : (cache V).Indexed d := fun short h =>
  ⟨fun _ => get_agree h short _, fun _ _ => by
    dsimp only [cache]
    simp only [set_agree h short]⟩

theorem Database.emulateTreeRecursive_agree (last : Address) : ∀ (n : ℕ) {a b : Address}, a.length + n = d →
    a.Agree d b → emulateTreeRecursive V last n a = emulateTreeRecursive V last n b
  | 0, a, b, level, h => by
    funext db
    rw [emulateTreeRecursive, leafHash, leafHash, h.toIndex (by omega)]
  | n + 1, a, b, level, h =>
    hashFromChildren_agree indexed (emulateTreeRecursive_agree last n) level h

theorem Layer.listsBelow_agree (own : Layer A I F) (h : a.Agree d b) (short : a.length ≤ d) :
    own.listsBelow a = own.listsBelow b := by
  have parent : ∀ other : Address, a.isParentOf other = b.isParentOf other := by
    intro other
    rw [isParentOf, h.1]
    congr 1
    show (a.length == b.length && a.toIndex == _) = (b.length == b.length && b.toIndex == _)
    rw [h.1, h.toIndex short]
  unfold listsBelow
  simp only [parent]

namespace MaskImpl

theorem orParent_agree (h : a.Agree d b) (short : a.length ≤ d)
    {here : MaskImpl A I F → Except Panic (F × MaskImpl A I F)}
    {atRoot : Database A I F → Except Panic (F × Database A I F)} :
    ∀ m : MaskImpl A I F, orParent a here atRoot m = orParent b here atRoot m
  | root _ => rfl
  | attached own parent => by
    rw [orParent, orParent, get_agree h short, Layer.listsBelow_agree own h short,
      orParent_agree h short parent]
  | unattached own => by
    rw [orParent, orParent, get_agree h short, Layer.listsBelow_agree own h short]

theorem emulateTreeRecursive_agree (last : Address) : ∀ (n : ℕ) {a b : Address}, a.length + n = d →
    a.Agree d b → emulateTreeRecursive V last n a = emulateTreeRecursive V last n b
  | 0, a, b, level, h => by
    funext m
    rw [emulateTreeRecursive, leafHash, leafHash, h.toIndex (by omega)]
  | n + 1, a, b, level, h => by
    refine hashFromChildren_agree indexed (fun {a b} level h => ?_) level h
    funext m
    rw [emulateTreeRecursive_agree last n level h, Database.emulateTreeRecursive_agree last n level h,
      orParent_agree h (by omega) m]

theorem getInnerHashAtAddr_agree {m : MaskImpl A I F} (h : a.Agree m.depth b) :
    m.getInnerHashAtAddr V a = m.getInnerHashAtAddr V b := by
  unfold getInnerHashAtAddr
  rw [← h.1]
  split
  · rfl
  · next short =>
    have level : a.length + (m.depth - a.length) = m.depth := by omega
    have fits : a.length ≤ m.depth := by omega
    unfold emulateTreeToGetHashAt computeHashOrParent
    rw [get_agree h fits, emulateTreeRecursive_agree m.lastAccount _ level h,
      Database.emulateTreeRecursive_agree m.lastAccount _ level h, orParent_agree h fits, ← h.1]

end MaskImpl

/-! ## Bits before the depth -/

namespace Address

variable {p : ℕ}

/-- A bit before `d` is set that the position `p` has not. -/
def Off (d p : ℕ) (a : Address) : Prop := ∃ k, p.testBit k = false ∧ a.inner.getLsbD (nbits - d + k) = true

theorem Off.childLeft (h : a.Off d p) : a.childLeft.Off d p := h

theorem Off.childRight (h : a.Off d p) : a.childRight.Off d p := by
  obtain ⟨k, clear, set⟩ := h
  refine ⟨k, clear, ?_⟩
  show (a.inner ||| BitVec.twoPow nbits (nbits - 1 - (a.length + 1 - 1))).getLsbD _ = true
  rw [getLsbD_or, set, Bool.true_or]

theorem Off.toIndex_ne (h : a.Off d p) (leaf : a.length = d) : a.toIndex ≠ p := by
  rintro rfl
  obtain ⟨k, clear, set⟩ := h
  rw [toIndex_eq, leaf, testBit_div_two_pow, Nat.add_comm] at clear
  cases clear.symm.trans set

end Address

/-- A database with an account at `p` at most, and with hashes of the empty tree only. -/
structure Lone (V : TreeVersion A I F) (d p : ℕ) (db : Database A I F) : Prop where
  depth : db.depth = d
  hashes : db.hashesMatrix.Sound V d fun _ => none
  room : db.hashesMatrix.emptyHashes.length = d
  only : ∀ j, j ≠ p → db.getAtIndex j = none

namespace Lone

variable {p : ℕ} {db : Database A I F}

theorem withMatrix (h : Lone V d p db) {m : HashesMatrix F} (sound : m.Sound V d fun _ => none)
    (room : m.emptyHashes.length = d) : Lone V d p { db with hashesMatrix := m } :=
  ⟨h.depth, sound, room, h.only⟩

theorem lawful (hd : d ≤ rangeHeight) (last : Address) :
    (cache V).Lawful V d (fun _ => none) last (Lone V d p) :=
  Database.lawful_of hd last (fun _ h => ⟨h.hashes, h.room⟩) fun _ _ h => h.withMatrix

theorem empty (h : Lone V d p db) (hd : d ≤ rangeHeight) {n : ℕ} (low : n < d) :
    ∃ db', (cache V).emptyHashAtHeight db n = .ok (V.emptyHashAtHeight n, db') ∧ Lone V d p db' := by
  have first : (fromIndex 0 0).toIndex = 0 := by decide
  exact (lawful hd (.fromIndex 0 0)).empty h low (first ▸ Nat.one_lt_two_pow (by omega))

theorem nodeHash_none (n i : ℕ) : V.nodeHash (fun _ => none) n i = V.emptyHashAtHeight n :=
  TreeVersion.nodeHash_empty fun _ _ => rfl

theorem leafHash (h : Lone V d p db) (hd : d ≤ rangeHeight) (pos : 0 < d) {a : Address} (leaf : a.length = d)
    (off : a.toIndex ≠ p) :
    ∃ db', Database.leafHash V a db = .ok (V.emptyHashAtHeight 0, db') ∧ Lone V d p db' := by
  have hb : d ≤ nbits := hd.trans (by decide)
  have index : (fromIndex a.toIndex d).toIndex = a.toIndex :=
    Address.toIndex_fromIndex (leaf ▸ Address.toIndex_lt (leaf ▸ hb)) hb
  have get : db.get (.fromIndex a.toIndex d) = none := by
    rw [Database.get, index]
    exact h.only _ off
  rw [Database.leafHash, Database.getAccountHash, h.depth]
  dsimp only
  cases cached : db.hashesMatrix.get (.fromIndex a.toIndex d) with
  | some x =>
    have zero : d - (fromIndex a.toIndex d).length = 0 := Nat.sub_self d
    refine ⟨db, ?_, h⟩
    rw [h.hashes.get hb le_rfl cached, zero, nodeHash_none]
    rfl
  | none =>
    dsimp only
    rw [get]
    exact h.empty hd pos

theorem childHash (h : Lone V d p db) (hd : d ≤ rangeHeight) (last : Address) {n : ℕ} (low : n < d)
    (level : a.length + n = d) {deeper : Address → Database A I F → Except Panic (F × Database A I F)}
    (deep : ∃ db', deeper a db = .ok (V.emptyHashAtHeight n, db') ∧ Lone V d p db') :
    ∃ db', getChildHash (cache V) last n deeper a db = .ok (V.emptyHashAtHeight n, db') ∧
      Lone V d p db' := by
  unfold getChildHash
  cases cached : (cache V).getCachedHash db a with
  | some x =>
    refine ⟨db, ?_, h⟩
    rw [h.hashes.get (hd.trans (by decide)) (by omega) cached, nodeHash_none]
    have height : d - a.length = n := by omega
    rw [height]
  | none =>
    dsimp only
    split
    · exact deep
    · exact h.empty hd low

theorem emulate (hd : d ≤ rangeHeight) (pos : 0 < d) (last : Address) : ∀ (n : ℕ) {a : Address}
    {db : Database A I F}, Lone V d p db → a.length + n = d → a.Off d p →
    ∃ db', emulateTreeRecursive V last n a db = .ok (V.emptyHashAtHeight n, db') ∧ Lone V d p db'
  | 0, a, db, h, level, off => h.leafHash hd pos level (off.toIndex_ne level)
  | n + 1, a, db, h, level, off => by
    have below : a.childLeft.length + n = d := by
      show a.length + 1 + n = d
      omega
    obtain ⟨db₁, left, h₁⟩ := h.childHash hd last (by omega) below
      (emulate hd pos last n h below off.childLeft)
    obtain ⟨db₂, right, h₂⟩ := h₁.childHash (a := a.childRight) hd last (by omega) below
      (emulate hd pos last n h₁ below off.childRight)
    obtain ⟨db₃, stored, h₃⟩ := storeHash_spec (lawful hd last) level h₂
    rw [nodeHash_none, nodeHash_none, nodeHash_none] at stored
    refine ⟨db₃, ?_, h₃⟩
    rw [emulateTreeRecursive, hashFromChildren, left, ok_bind]
    dsimp only
    rw [right]
    exact stored

theorem getHash [DecidableEq I] (h : Lone V LEDGER_DEPTH p db) (short : a.length ≤ LEDGER_DEPTH)
    (off : a.Off LEDGER_DEPTH p) :
    ∃ db', Ledger.getHash V a (.root db) = .ok (some (V.emptyHashAtHeight (LEDGER_DEPTH - a.length)), .root db') ∧
      Lone V LEDGER_DEPTH p db' := by
  have level : a.length + (LEDGER_DEPTH - a.length) = LEDGER_DEPTH := Nat.add_sub_cancel' short
  have depth : (MaskImpl.root db).depth = LEDGER_DEPTH := h.depth
  rw [Ledger.getHash, MaskImpl.getInnerHashAtAddr, depth, if_neg (not_lt.2 short), MaskImpl.emulateTreeToGetHashAt]
  cases cached : (MaskImpl.root db).hashes.get a with
  | some x =>
    refine ⟨db, ?_, h⟩
    rw [h.hashes.get (by decide) short cached, nodeHash_none]
    rfl
  | none =>
    obtain ⟨db', run, h'⟩ := emulate (by decide) (by decide) (MaskImpl.root db).lastAccount _ h level off
    refine ⟨db', ?_, h'⟩
    rw [← depth] at run
    dsimp only
    rw [MaskImpl.computeHashOrParent, MaskImpl.orParent, run, ← depth]
    rfl

end Lone

/-! ## The leaves below an address -/

namespace Address

/-- `clear_after`: the bits after `index` are cleared, up to the end of the used bytes. -/
def clearAfter (a : Address) (index : ℕ) : Address :=
  let kept := nbits - 1 - index
  let rest := 8 * max a.nusedBytes (index / 8 + 1)
  { a with inner := a.inner >>> kept <<< kept ||| a.inner <<< rest >>> rest }

/-- `AddressChildrenIterator`, for as many leaves as `fuel` says. -/
def childrenFrom : ℕ → Option Address → Option Address → List Address
  | 0, _, _ => []
  | fuel + 1, current, stop =>
    if current == stop then []
    else match current with
      | none => []
      | some a => a :: childrenFrom fuel a.next stop

def leafOf (a : Address) (length : ℕ) (b : Address) : Address :=
  { b with length := length }.clearAfter a.length

/-- `iter_children`; there are `2 ^ length` leaves in all. -/
def iterChildren (a : Address) (length : ℕ) : List Address :=
  let current := some (a.leafOf length a)
  let stop := a.next.map (a.leafOf length)
  childrenFrom (2 ^ length) current (if stop == current then none else stop)

variable {length u : ℕ} {stop : Option Address}

theorem le_of_mem_childrenFrom (bits : length ≤ nbits) : ∀ {fuel : ℕ} {a leaf : Address}, a.length = length →
    leaf ∈ childrenFrom fuel (some a) stop → a.toIndex ≤ leaf.toIndex
  | 0, a, leaf, _, mem => by cases mem
  | fuel + 1, a, leaf, level, mem => by
    rw [childrenFrom] at mem
    split at mem
    · cases mem
    · rcases List.mem_cons.1 mem with rfl | mem
      · exact le_rfl
      · cases after : a.next with
        | none =>
          rw [after] at mem
          cases fuel with
          | zero => cases mem
          | succ fuel =>
            rw [childrenFrom] at mem
            split at mem <;> cases mem
        | some b =>
          rw [after] at mem
          obtain ⟨same, index, -⟩ := next_eq_some (level ▸ bits) after
          have := le_of_mem_childrenFrom bits (same.trans level) mem
          omega

/-- What `stop` stands for: the leaf before which the iterator ends. -/
def Stops (length u : ℕ) : Option Address → Prop
  | none => u = 2 ^ length
  | some b => b.length = length ∧ b.toIndex = u

theorem childrenFrom_toIndex (bits : length ≤ nbits) (stops : Stops length u stop) :
    ∀ {fuel : ℕ} {a : Address}, a.length = length → a.toIndex ≤ u → u - a.toIndex ≤ fuel →
      (childrenFrom fuel (some a) stop).map toIndex = List.range' a.toIndex (u - a.toIndex)
  | 0, a, _, _, enough => by
    rw [le_zero.1 enough]
    rfl
  | fuel + 1, a, level, le, enough => by
    have inside : a.toIndex < 2 ^ length := level ▸ toIndex_lt (level ▸ bits)
    rw [childrenFrom]
    by_cases ends : a.toIndex = u
    · cases stop with
      | none =>
        rw [Stops] at stops
        omega
      | some b =>
        have same : (some a == some b) = true := beq_eq_true.2 ⟨level.trans stops.1.symm, ends.trans stops.2.symm⟩
        rw [if_pos same, ends, Nat.sub_self]
        rfl
    · have apart : ¬ (some a == stop) = true := by
        intro same
        cases stop with
        | none => cases same
        | some b => exact ends ((beq_eq_true.1 same).2.trans stops.2)
      have more : u - a.toIndex = (u - (a.toIndex + 1)) + 1 := by omega
      rw [if_neg apart, more, List.map_cons]
      congr 1
      cases after : a.next with
      | some b =>
        obtain ⟨same, index, -⟩ := next_eq_some (level ▸ bits) after
        rw [← index]
        exact childrenFrom_toIndex bits stops (same.trans level) (by omega) (by omega)
      | none =>
        -- the last leaf of the tree, where only `none` can stop
        have last : u = a.toIndex + 1 := by
          have full : ¬ a.toIndex + 1 < 2 ^ length := by
            intro lt
            rw [next] at after
            split at after
            · next zero =>
              rw [← level, zero] at lt
              omega
            · rw [if_pos (level ▸ lt)] at after
              cases after
          cases stop with
          | none =>
            rw [Stops] at stops
            omega
          | some b =>
            have := toIndex_lt (stops.1 ▸ bits)
            rw [stops.1, stops.2] at this
            omega
        rw [last, Nat.sub_self]
        cases fuel with
        | zero => rfl
        | succ fuel =>
          rw [childrenFrom]
          split <;> rfl

theorem toIndex_leafOf (short : a.length ≤ LEDGER_DEPTH) (b : Address) : (a.leafOf LEDGER_DEPTH b).toIndex =
      b.inner.toNat / 2 ^ (nbits - 1 - a.length) * 2 ^ (nbits - 1 - a.length) / 2 ^ (nbits - LEDGER_DEPTH) := by
  have used : max ({ b with length := LEDGER_DEPTH } : Address).nusedBytes (a.length / 8 + 1) = 5 := by
    have depth : LEDGER_DEPTH = 35 := rfl
    show max ((LEDGER_DEPTH - 1) / 8 + 1) _ = 5
    omega
  have small : b.inner.toNat / 2 ^ (nbits - 1 - a.length) * 2 ^ (nbits - 1 - a.length) < 2 ^ nbits :=
    (div_mul_le_self _ _).trans_lt b.inner.isLt
  rw [toIndex_eq]
  simp only [leafOf, clearAfter, used]
  congr 1
  simpa [BitVec.toNat_shiftLeft, BitVec.toNat_ushiftRight, Nat.shiftLeft_eq, Nat.shiftRight_eq_div_pow] using
    Nat.mod_eq_of_lt small

def FirstClear (a : Address) : Prop := a.get a.length = .left

instance (a : Address) : Decidable a.FirstClear := inferInstanceAs (Decidable (_ = _))

theorem div_of_firstClear (short : a.length ≤ LEDGER_DEPTH) (clear : a.FirstClear) :
    a.inner.toNat / 2 ^ (nbits - 1 - a.length) = 2 * a.toIndex := by
  have bits : a.length < nbits := short.trans_lt (by decide)
  have snoc := toIndex_snoc (a := a) bits
  rw [clear] at snoc
  have same : nbits - 1 - a.length = nbits - (a.length + 1) := by omega
  rw [same]
  exact snoc

theorem toNat_withIndex {i : ℕ} (bits : a.length ≤ nbits) (inside : i < 2 ^ a.length) :
    (a.withIndex i 0).inner.toNat =
      i * 2 ^ (nbits - a.length) + a.inner.toNat % 2 ^ (nbits - 8 * a.nusedBytes) := by
  have fits : a.inner.toNat % 2 ^ (nbits - 8 * a.nusedBytes) < 2 ^ (nbits - a.length) := by
    refine (Nat.mod_lt _ (Nat.two_pow_pos _)).trans_le (Nat.pow_le_pow_right (by decide) ?_)
    rw [nusedBytes]
    omega
  have small : i * 2 ^ (nbits - a.length) + a.inner.toNat % 2 ^ (nbits - 8 * a.nusedBytes) < 2 ^ nbits := by
    calc i * 2 ^ (nbits - a.length) + a.inner.toNat % 2 ^ (nbits - 8 * a.nusedBytes)
        < (i + 1) * 2 ^ (nbits - a.length) := by rw [Nat.add_mul]; omega
      _ ≤ 2 ^ a.length * 2 ^ (nbits - a.length) := Nat.mul_le_mul_right _ inside
      _ = 2 ^ nbits := by rw [← pow_add, Nat.add_sub_cancel' bits]
  show (BitVec.ofNat nbits _).toNat = _
  rw [BitVec.toNat_ofNat, Nat.zero_mod, Nat.zero_mul, Nat.add_zero, Nat.mod_eq_of_lt small]

theorem toIndex_leafOf_clear (short : a.length ≤ LEDGER_DEPTH) {j : ℕ}
    (node : b.inner.toNat / 2 ^ (nbits - a.length) = j)
    (clear : a.length < LEDGER_DEPTH → b.inner.toNat / 2 ^ (nbits - 1 - a.length) = 2 * j) :
    (a.leafOf LEDGER_DEPTH b).toIndex = j * 2 ^ (LEDGER_DEPTH - a.length) := by
  rw [toIndex_leafOf short]
  rcases lt_or_eq_of_le short with inner | leaf
  · have room : LEDGER_DEPTH < nbits := by decide
    obtain ⟨h, half⟩ : ∃ h, LEDGER_DEPTH - a.length = h + 1 := ⟨LEDGER_DEPTH - a.length - 1, by omega⟩
    have wide : nbits - 1 - a.length = h + (nbits - LEDGER_DEPTH) := by omega
    rw [clear inner, wide, half, pow_add, ← Nat.mul_assoc, Nat.mul_div_cancel _ (Nat.two_pow_pos _)]
    ring
  · rw [leaf] at node ⊢
    rw [← node]
    show b.inner.toNat / 2 ^ 4 * 2 ^ 4 / 2 ^ 5 = b.inner.toNat / 2 ^ 5 * 2 ^ 0
    omega

theorem next_firstClear (short : a.length < LEDGER_DEPTH) (clear : a.FirstClear) {i : ℕ} (inside : i < 2 ^ a.length) :
    (a.withIndex i 0).inner.toNat / 2 ^ (nbits - 1 - a.length) = 2 * i := by
  have room : LEDGER_DEPTH < nbits := by decide
  have bits : a.length ≤ nbits := short.le.trans room.le
  have div := div_of_firstClear short.le clear
  have wide : nbits - a.length = (nbits - 1 - a.length) + 1 := by omega
  -- the bits after the used bytes are among those after the first unused one
  have low : a.inner.toNat % 2 ^ (nbits - 8 * a.nusedBytes) < 2 ^ (nbits - 1 - a.length) := by
    by_cases full : 8 * a.nusedBytes = a.length
    · rw [full, wide, Nat.pow_succ]
      have mod := mod_mul (x := a.inner.toNat) (a := 2 ^ (nbits - 1 - a.length)) (b := 2)
      rw [mod, div, Nat.mul_mod_right, Nat.mul_zero]
      exact Nat.mod_lt _ (Nat.two_pow_pos _)
    · refine (Nat.mod_lt _ (Nat.two_pow_pos _)).trans_le (Nat.pow_le_pow_right (by decide) ?_)
      rw [nusedBytes] at full ⊢
      omega
  rw [toNat_withIndex bits inside, wide, Nat.pow_succ, Nat.add_comm, ← Nat.mul_assoc, Nat.mul_right_comm,
    Nat.add_mul_div_right _ _ (Nat.two_pow_pos _), Nat.div_eq_of_lt low]
  omega

/-- **The leaves below an address** whose first unused bit is not set. -/
theorem iterChildren_toIndex (short : a.length ≤ LEDGER_DEPTH) (clear : a.length < LEDGER_DEPTH → a.FirstClear) :
    (a.iterChildren LEDGER_DEPTH).map toIndex =
      List.range' (a.toIndex * 2 ^ (LEDGER_DEPTH - a.length)) (2 ^ (LEDGER_DEPTH - a.length)) := by
  have bits : a.length ≤ nbits := short.trans (by decide)
  have size : 2 ^ a.length * 2 ^ (LEDGER_DEPTH - a.length) = 2 ^ LEDGER_DEPTH := by
    rw [← pow_add, Nat.add_sub_cancel' short]
  have first := toIndex_leafOf_clear short (toIndex_eq a).symm fun inner => div_of_firstClear short (clear inner)
  have positive : 0 < 2 ^ (LEDGER_DEPTH - a.length) := Nat.two_pow_pos _
  have end' : (a.toIndex + 1) * 2 ^ (LEDGER_DEPTH - a.length) =
      a.toIndex * 2 ^ (LEDGER_DEPTH - a.length) + 2 ^ (LEDGER_DEPTH - a.length) := by
    rw [Nat.add_mul, Nat.one_mul]
  have stops : Stops LEDGER_DEPTH ((a.toIndex + 1) * 2 ^ (LEDGER_DEPTH - a.length))
      (if a.next.map (a.leafOf LEDGER_DEPTH) == some (a.leafOf LEDGER_DEPTH a) then none
        else a.next.map (a.leafOf LEDGER_DEPTH)) := by
    have inside : a.toIndex < 2 ^ a.length := toIndex_lt bits
    by_cases more : a.length ≠ 0 ∧ a.toIndex + 1 < 2 ^ a.length
    · have next : a.next = some (a.withIndex (a.toIndex + 1) 0) := by
        rw [next, if_neg more.1, if_pos more.2]
      have node : (a.withIndex (a.toIndex + 1) 0).toIndex = a.toIndex + 1 :=
        toIndex_withIndex (pos_of_ne_zero more.1) bits more.2
      rw [toIndex_eq] at node
      have index := toIndex_leafOf_clear short (b := a.withIndex (a.toIndex + 1) 0) node fun inner =>
        next_firstClear inner (clear inner) more.2
      have apart : ¬ (some (a.leafOf LEDGER_DEPTH (a.withIndex (a.toIndex + 1) 0)) ==
          some (a.leafOf LEDGER_DEPTH a)) = true := by
        intro same
        rw [Option.some_beq_some] at same
        have := (beq_eq_true.1 same).2
        omega
      rw [next, Option.map_some, if_neg apart]
      exact ⟨rfl, index⟩
    · have next : a.next = none := by
        rw [next]
        split
        · rfl
        · next zero => rw [if_neg fun lt => more ⟨zero, lt⟩]
      have last : a.toIndex + 1 = 2 ^ a.length := by
        by_cases zero : a.length = 0
        · rw [zero] at inside ⊢
          omega
        · omega
      rw [next, last, size]
      rfl
  have enough : 2 ^ (LEDGER_DEPTH - a.length) ≤ 2 ^ LEDGER_DEPTH := Nat.pow_le_pow_right (by decide) (Nat.sub_le ..)
  have run : (a.iterChildren LEDGER_DEPTH).map toIndex = _ :=
    childrenFrom_toIndex (a := a.leafOf LEDGER_DEPTH a) (by decide) stops rfl (by omega) (by omega)
  rw [run, first, end', Nat.add_sub_cancel_left]

theorem lt_of_mem_iterChildren (short : a.length < LEDGER_DEPTH) (set : ¬ a.FirstClear) {leaf : Address}
    (mem : leaf ∈ a.iterChildren LEDGER_DEPTH) : a.toIndex * 2 ^ (LEDGER_DEPTH - a.length) < leaf.toIndex := by
  have room : LEDGER_DEPTH < nbits := by decide
  obtain ⟨h, half⟩ : ∃ h, LEDGER_DEPTH - a.length = h + 1 := ⟨LEDGER_DEPTH - a.length - 1, by omega⟩
  have wide : nbits - 1 - a.length = h + (nbits - LEDGER_DEPTH) := by omega
  have right : a.get a.length = .right := by
    cases bit : a.get a.length with
    | left => exact absurd bit set
    | right => rfl
  have snoc := toIndex_snoc (a := a) (short.trans room)
  rw [right] at snoc
  have same : nbits - (a.length + 1) = nbits - 1 - a.length := by omega
  have middle : a.inner.toNat / 2 ^ (nbits - 1 - a.length) = 2 * a.toIndex + 1 := by
    rw [← same]
    exact snoc
  have from' : (a.leafOf LEDGER_DEPTH a).toIndex ≤ leaf.toIndex := le_of_mem_childrenFrom room.le rfl mem
  rw [toIndex_leafOf short.le, middle, wide, pow_add, ← Nat.mul_assoc, Nat.mul_div_cancel _ (Nat.two_pow_pos _)] at from'
  rw [half, Nat.pow_succ]
  have positive : 0 < 2 ^ h := Nat.two_pow_pos _
  nlinarith

end Address

end MinaRust.Ledger
