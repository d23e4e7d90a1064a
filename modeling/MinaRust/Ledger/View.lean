/-
  What a mask shows, and the hashes it computes.

  The view of a mask is its own accounts over those of its parent.  A mask is sound when
  every layer down to the database holds right hashes only and lists each of its accounts.
-/
import MinaRust.Ledger.Mask

namespace MinaRust.Ledger

open List Address Nat Layer Merkle TreeVersion

variable {A I F : Type}

namespace Layer

def overlay (own : Layer A I F) (below : ℕ → Option A) (i : ℕ) : Option A :=
  own.owningAccount.lookup i <|> below i

/-- Everything but the hashes; of these only their number is kept. -/
def strip (own : Layer A I F) : Layer A I F :=
  { own with
    hashes := ⟨∅, List.replicate own.hashes.emptyHashes.length none, own.hashes.ledgerDepth⟩ }

/-- The accounts of the layer are at leaves up to the last location, and it
    holds right hashes only. -/
structure Tidy (V : TreeVersion A I F) (d : ℕ) (below : ℕ → Option A)
    (own : Layer A I F) : Prop where
  depth : own.depth = d
  hashes : own.hashes.Sound V d (own.overlay below)
  index : ∀ e ∈ own.idToAddr.entries, e.2.length = d
  leaf : ∀ {l : Address}, own.lastLocation = some l → l.length = d
  le : ∀ {i : ℕ}, (own.owningAccount.lookup i).isSome → Reaches own.lastLocation i

structure Sound (V : TreeVersion A I F) (d : ℕ) (below : ℕ → Option A)
    (own : Layer A I F) : Prop extends own.Tidy V d below where
  listed : ∀ {i : ℕ}, (own.owningAccount.lookup i).isSome → ∃ e ∈ own.idToAddr.entries, e.2.toIndex = i

def Exact (own : Layer A I F) : Prop :=
  ∀ e ∈ own.idToAddr.entries, (own.owningAccount.lookup e.2.toIndex).isSome

variable {V : TreeVersion A I F} {d : ℕ} {below below' : ℕ → Option A}
  {own own' : Layer A I F}

theorem overlay_insert {index i : ℕ} (account : A) (ne : i ≠ index) : own.overlay below i =
      { own with owningAccount := own.owningAccount.insert index account }.overlay below i := by
  rw [overlay, overlay, AList.lookup_insert_ne ne]

theorem overlay_erase {index i : ℕ} (ne : i ≠ index) : own.overlay below i =
      { own with owningAccount := own.owningAccount.erase index }.overlay below i := by
  rw [overlay, overlay, AList.lookup_erase_ne ne]

theorem Sound.overlay_eq (s : own.Sound V d below) (hd : d ≤ nbits) {a : Address} {n i : ℕ}
    (ha : a.length + n = d) (none : own.listsBelow a = false) (hi : i / 2 ^ n = a.toIndex) :
    own.overlay below i = below i := by
  have absent : own.owningAccount.lookup i = .none := by
    by_contra present
    obtain ⟨e, he, rfl⟩ := s.listed (Option.isSome_iff_ne_none.2 present)
    rw [listsBelow, any_eq_false] at none
    have len := s.index e he
    refine none e he ((isParentOf_iff (by omega) (by omega)).2 ?_)
    rw [len, show d - a.length = n by omega, hi]
  rw [overlay, absent]
  rfl

theorem Sound.listed_leaf (s : own.Sound V d below) (hd : d ≤ nbits) (exact : own.Exact) {a : Address}
    (ha : a.length = d) (some : own.listsBelow a = true) : (own.owningAccount.lookup a.toIndex).isSome := by
  rw [listsBelow, any_eq_true] at some
  obtain ⟨e, he, parent⟩ := some
  have len := s.index e he
  have index := (isParentOf_iff (by omega) (by omega)).1 parent
  rw [len, ha, Nat.sub_self, pow_zero, Nat.div_one] at index
  rw [← index]
  exact exact e he

end Layer

namespace MaskImpl

def view : MaskImpl A I F → ℕ → Option A
  | root database => database.getAtIndex
  | attached own parent => own.overlay parent.view
  | unattached own => own.overlay fun _ => none

/-- Everything but the hashes. -/
def strip : MaskImpl A I F → MaskImpl A I F
  | root database => root database.strip
  | attached own parent => attached own.strip parent.strip
  | unattached own => unattached own.strip

def Sound (V : TreeVersion A I F) (d : ℕ) : MaskImpl A I F → Prop
  | root database => database.Sound V d
  | attached own parent =>
    own.Sound V d parent.view ∧ own.hashes.emptyHashes.length = d ∧ parent.Sound V d
  | unattached _ => False

/-- There is room for empty hashes, or no account is listed, or all leaves are filled and every
    listed account is there. -/
def Answers (V : TreeVersion A I F) (d : ℕ) (last : Address) : MaskImpl A I F → Prop
  | root database => database.Sound V d
  | attached own parent =>
    own.Sound V d parent.view ∧
      (own.hashes.emptyHashes.length = d ∨ (last.toIndex + 1 = 2 ^ d ∧ own.Exact) ∨
        own.idToAddr.entries = []) ∧
      parent.Answers V d last
  | unattached _ => False

variable {V : TreeVersion A I F} {d : ℕ} {last : Address}
  {m m' m₀ : MaskImpl A I F}

theorem get_eq (addr : Address) : ∀ m : MaskImpl A I F, m.get addr = m.view addr.toIndex
  | root _ => rfl
  | attached own parent => by
    rw [get, view, overlay, get_eq addr parent]
  | unattached own => by
    rw [get, view, overlay]
    cases own.owningAccount.lookup addr.toIndex <;> rfl

theorem Sound.answers : ∀ {m : MaskImpl A I F}, m.Sound V d → m.Answers V d last
  | root _, s => s
  | attached _ _, ⟨s, room, p⟩ => ⟨s, Or.inl room, p.answers⟩

@[simp] theorem view_strip : ∀ m : MaskImpl A I F, m.strip.view = m.view
  | root _ => rfl
  | attached own parent => by
    rw [strip, view, view_strip parent]
    rfl
  | unattached _ => rfl

theorem view_of_strip (h : m.strip = m₀.strip) : m.view = m₀.view := by
  rw [← view_strip m, h, view_strip]

/-! ## The cache -/

/-- The masks that differ from `m₀` in hashes only, and can answer. -/
def Like (V : TreeVersion A I F) (d : ℕ) (last : Address) (m₀ m : MaskImpl A I F) : Prop :=
  m.Answers V d last ∧ m.strip = m₀.strip

theorem Answers.sound_of_strip : ∀ {m m₀ : MaskImpl A I F}, m.Answers V d last →
    m.strip = m₀.strip → m₀.Sound V d → m.Sound V d
  | root _, root _, s, _, _ => s
  | attached own parent, attached own₀ parent₀, ⟨s, _, p⟩, h, ⟨_, room, p₀⟩ => by
    injection h with own_eq parent_eq
    have : own.strip.hashes.emptyHashes.length = own₀.strip.hashes.emptyHashes.length := by
      rw [own_eq]
    simp only [Layer.strip, length_replicate] at this
    exact ⟨s, this.trans room, p.sound_of_strip parent_eq p₀⟩

theorem Answers.hashes : ∀ {m : MaskImpl A I F}, m.Answers V d last → m.hashes.Sound V d m.view
  | root _, s => Database.Sound.hashes s
  | attached _ _, ⟨s, _, _⟩ => s.hashes

/-- The mask has room for empty hashes, or lists an account below `addr`. -/
def CanHash (d : ℕ) (addr : Address) : MaskImpl A I F → Prop
  | root _ => True
  | attached own _ => own.hashes.emptyHashes.length = d ∨ own.listsBelow addr = true
  | unattached _ => False

theorem Sound.canHash (addr : Address) : ∀ {m : MaskImpl A I F}, m.Sound V d → m.CanHash d addr
  | root _, _ => trivial
  | attached _ _, ⟨_, room, _⟩ => Or.inl room

theorem CanHash.of_strip {addr : Address} : ∀ {m m₀ : MaskImpl A I F},
    m.strip = m₀.strip → m₀.CanHash d addr → m.CanHash d addr
  | root _, root _, _, _ => trivial
  | attached own _, attached own₀ _, h, c => by
    injection h with own_eq
    have len : own.strip.hashes.emptyHashes.length = own₀.strip.hashes.emptyHashes.length := by
      rw [own_eq]
    have lists : own.strip.listsBelow addr = own₀.strip.listsBelow addr := by rw [own_eq]
    simp only [Layer.strip, length_replicate] at len
    exact c.imp (fun room => len.trans room) fun c => lists.trans c
  | unattached _, unattached _, _, c => c.elim

theorem Answers.room {addr : Address} : ∀ {m : MaskImpl A I F},
    m.Answers V d last → m.CanHash d addr → last.toIndex + 1 < 2 ^ d →
    m.hashes.emptyHashes.length = d
  | root _, s, _, _ => Database.Sound.room s
  | attached own _, ⟨_, room, _⟩, can, h => by
    rcases room with room | ⟨full, -⟩ | empty
    · exact room
    · omega
    · refine can.resolve_right fun lists => ?_
      rw [listsBelow, empty] at lists
      cases lists

theorem Like.withHashes {α : Type} {a : α} {h : HashesMatrix F}
    {f : HashesMatrix F → Except Panic (α × HashesMatrix F)} :
    ∀ {m : MaskImpl A I F}, Like V d last m₀ m → f m.hashes = .ok (a, h) →
      h.Sound V d m.view → h.emptyHashes.length = m.hashes.emptyHashes.length →
      ∃ m', m.withHashes f = .ok (a, m') ∧ Like V d last m₀ m'
  | root database, ⟨s, eq⟩, run, sound, len => by
    refine ⟨root { database with hashesMatrix := h }, ?_, ?_, eq⟩
    · rw [MaskImpl.withHashes, show f database.hashesMatrix = _ from run]
      rfl
    · exact Database.Sound.withMatrix s sound (len.trans (Database.Sound.room s))
  | attached own parent, ⟨⟨s, room, p⟩, eq⟩, run, sound, len => by
    refine ⟨attached { own with hashes := h } parent, ?_, ⟨?_, ?_, p⟩, ?_⟩
    · rw [MaskImpl.withHashes, show f own.hashes = _ from run]
      rfl
    · exact { s with hashes := sound }
    · exact room.imp_left fun room => len.trans room
    · rw [← eq, strip, strip, Layer.strip, Layer.strip]
      congr 2
      simp only [HashesMatrix.mk.injEq, true_and]
      exact ⟨congrArg (List.replicate · none) len, sound.depth.trans s.hashes.depth.symm⟩

theorem lawful (hd : d ≤ rangeHeight) {addr : Address} (can : m₀.CanHash d addr) :
    (cache V).Lawful V d m₀.view last (Like V d last m₀) where
  get {s a x} ok ha h := by
    rw [← view_of_strip ok.2]
    exact ok.1.hashes.get (hd.trans (by decide)) ha h
  set {s a} ok ha fresh := by
    rw [← view_of_strip ok.2]
    obtain ⟨h, set, sound, empties⟩ := ok.1.hashes.set (hd.trans (by decide)) ha fresh
    obtain ⟨m', run, like⟩ := ok.withHashes (a := ()) (f := fun hashes => do
      let hashes ← hashes.set a (V.nodeHash s.view (d - a.length) a.toIndex)
      .ok ((), hashes)) (by simp only [set, ok_bind]) sound (by rw [empties])
    exact ⟨m', by simp only [cache, run, ok_bind], like⟩
  empty {s h} ok hh after := by
    have room := ok.1.room (can.of_strip ok.2) after
    obtain ⟨hs, eq, sound, -, len⟩ := ok.1.hashes.emptyHashAtHeight room hd hh
    exact ok.withHashes (f := fun hashes => hashes.emptyHashAtHeight V h) eq sound
      (len.trans room.symm)

/-! ## Leaves -/

theorem accountHash_spec (hd : d ≤ nbits) {own : Layer A I F} {below : ℕ → Option A} (s : own.Sound V d below)
    {i : ℕ} (hi : i < 2 ^ d) {account : A} (here : own.owningAccount.lookup i = some account) :
    ∃ h, own.accountHash V i account = .ok (V.hashLeaf account, { own with hashes := h }) ∧
      h.Sound V d (own.overlay below) ∧
      h.emptyHashes.length = own.hashes.emptyHashes.length := by
  have node : V.nodeHash (own.overlay below) (d - (Address.fromIndex i d).length)
      (Address.fromIndex i d).toIndex = V.hashLeaf account := by
    rw [show d - (fromIndex i d).length = 0 from Nat.sub_self d,
      toIndex_fromIndex hi hd, nodeHash, hashAt, overlay, here]
    rfl
  rw [accountHash, show fromIndex i own.depth = .fromIndex i d by rw [s.depth]]
  cases cached : own.hashes.get (.fromIndex i d) with
  | some x =>
    refine ⟨own.hashes, ?_, s.hashes, rfl⟩
    rw [← node, ← s.hashes.get hd le_rfl cached]
  | none =>
    obtain ⟨h, set, sound, empties⟩ := s.hashes.set hd le_rfl cached
    rw [node] at set
    refine ⟨h, ?_, sound, by rw [empties]⟩
    show (own.hashes.set _ (V.hashLeaf account) >>= _) = _
    rw [set]
    rfl

theorem getAccountHash_spec (hd : d ≤ nbits) {i : ℕ} (hi : i < 2 ^ d) :
    ∀ {m : MaskImpl A I F}, m.Answers V d last →
    ∃ o m', m.getAccountHash V i = .ok (o, m') ∧ Like V d last m m' ∧
      (o = none → m.view i = none) ∧ ∀ x, o = some x → x = V.leafHash (m.view i)
  | root database, s => by
    obtain ⟨o, database', run, ⟨s', eq⟩, empty, known⟩ :=
      Database.getAccountHash_spec hd ⟨s, rfl⟩ hi
    exact ⟨o, root database', by simp only [getAccountHash, run, ok_bind],
      ⟨s', congrArg root eq⟩, empty, known⟩
  | attached own parent, ⟨s, room, p⟩ => by
    rw [getAccountHash]
    cases here : own.owningAccount.lookup i with
    | some account =>
      obtain ⟨h, run, sound, len⟩ := accountHash_spec hd s hi here
      obtain ⟨m', eq, like⟩ := Like.withHashes (m := attached own parent) (a := ())
        (f := fun _ => .ok ((), h)) ⟨⟨s, room, p⟩, rfl⟩ rfl sound len
      cases eq
      refine ⟨some (V.hashLeaf account), _, by simp only [run, ok_bind], like, nofun, ?_⟩
      intro x hx
      cases hx
      rw [view, overlay, here]
      rfl
    | none =>
      obtain ⟨o, parent', run, ⟨p', eq⟩, empty, known⟩ :=
        getAccountHash_spec hd hi (m := parent) p
      have same : (attached own parent).view i = parent.view i := by
        rw [view, overlay, here]
        rfl
      refine ⟨o, attached own parent', by simp only [run, ok_bind], ⟨⟨?_, room, ?_⟩, ?_⟩, ?_, ?_⟩
      · rw [view_of_strip eq]
        exact s
      · exact p'
      · rw [strip, strip, eq]
      · rw [same]
        exact empty
      · rw [same]
        exact known

theorem Answers.room_of_empty (hd : d ≤ nbits) {a : Address} (ha : a.length = d) :
    ∀ {m : MaskImpl A I F}, m.Answers V d last → m.CanHash d a →
    m.view a.toIndex = none → m.hashes.emptyHashes.length = d
  | root _, s, _, _ => Database.Sound.room s
  | attached own parent, ⟨s, room, _⟩, can, empty => by
    rcases room with room | room
    · exact room
    · refine can.resolve_right fun lists => ?_
      have exact : own.Exact := by
        rcases room with ⟨-, exact⟩ | empty
        · exact exact
        · intro e he
          rw [empty] at he
          cases he
      have := s.listed_leaf hd exact ha lists
      rw [view, overlay] at empty
      rw [Option.isSome_iff_exists] at this
      obtain ⟨account, here⟩ := this
      rw [here] at empty
      cases empty
  | unattached _, s, _, _ => s.elim

variable {a : Address}

theorem leafHash_spec (hd : d ≤ rangeHeight) (pos : 0 < d) (ha : a.length = d) (ok : m.Answers V d last)
    (can : m.CanHash d a) :
    ∃ m', leafHash V a m = .ok (V.nodeHash m.view 0 a.toIndex, m') ∧ Like V d last m m' := by
  have hb : d ≤ nbits := hd.trans (by decide)
  have hi : a.toIndex < 2 ^ d := by
    rw [← ha]
    exact toIndex_lt (by omega)
  obtain ⟨o, m₁, run, like, empty, known⟩ := getAccountHash_spec hb hi ok
  rw [leafHash, run]
  cases o with
  | some x =>
    refine ⟨m₁, ?_, like⟩
    rw [known x rfl]
    rfl
  | none =>
    have room := like.1.room_of_empty hb ha (can.of_strip like.2) (by
      rw [view_of_strip like.2]
      exact empty rfl)
    obtain ⟨h, eq, sound, -, len⟩ := like.1.hashes.emptyHashAtHeight room hd pos
    obtain ⟨m', eq', like'⟩ := like.withHashes
      (f := fun hashes => hashes.emptyHashAtHeight V 0) eq sound (len.trans room.symm)
    refine ⟨m', ?_, like'⟩
    rw [nodeHash, hashAt, empty rfl]
    exact eq'

/-! ## Nodes -/

theorem Bounds.parent {own : Layer A I F} {parent : MaskImpl A I F}
    (b : Bounds d (attached own parent).view last) : Bounds d parent.view last where
  depth := b.depth
  length := b.length
  le {j} some := b.le (by
    rw [view, overlay]
    cases own.owningAccount.lookup j with
    | none => exact some
    | some account => exact nofun)

theorem Like.attached {own : Layer A I F} {parent parent' : MaskImpl A I F}
    (ok : (attached own parent).Answers V d last) (like : Like V d last parent parent') :
    Like V d last (.attached own parent) (.attached own parent') := by
  obtain ⟨s, room, p⟩ := ok
  refine ⟨⟨?_, room, like.1⟩, ?_⟩
  · rw [view_of_strip like.2]
    exact s
  · rw [strip, strip, like.2]

/-- **Delegation.**  If `here` and `atRoot` hash the node `a`, over any mask that
    can hash it, then so does `orParent`. -/
theorem orParent_spec (hd : d ≤ nbits) {a : Address} {n : ℕ} (ha : a.length + n = d)
    {here : MaskImpl A I F → Except Panic (F × MaskImpl A I F)}
    {atRoot : Database A I F → Except Panic (F × Database A I F)}
    (hHere : ∀ m : MaskImpl A I F, m.Answers V d last → Bounds d m.view last → m.CanHash d a → ∃ m', here m = .ok (V.nodeHash m.view n a.toIndex, m') ∧ Like V d last m m')
    (hRoot : ∀ db : Database A I F, db.Sound V d → Bounds d db.getAtIndex last → ∃ db', atRoot db = .ok (V.nodeHash db.getAtIndex n a.toIndex, db') ∧ Database.Like V d db db') :
    ∀ {m : MaskImpl A I F}, m.Answers V d last → Bounds d m.view last →
      ∃ m', orParent a here atRoot m = .ok (V.nodeHash m.view n a.toIndex, m') ∧ Like V d last m m'
  | root db, s, b => by
    obtain ⟨db', run, like⟩ := hRoot db s b
    exact ⟨root db', by simp only [orParent, run, ok_bind]; rfl, like.1, congrArg root like.2⟩
  | attached own parent, ok, b => by
    rw [orParent]
    cases cached : own.hashes.get a with
    | some x =>
      refine ⟨attached own parent, ?_, ok, rfl⟩
      rw [ok.hashes.get hd (by omega) cached, show d - a.length = n by omega]
    | none =>
      by_cases lists : own.listsBelow a = true
      · simp only [if_pos lists]
        exact hHere _ ok b (Or.inr lists)
      · simp only [if_neg lists]
        obtain ⟨parent', run, like⟩ :=
          orParent_spec hd ha hHere hRoot ok.2.2 (Bounds.parent b)
        refine ⟨attached own parent', ?_, like.attached ok⟩
        rw [run, ok_bind]
        simp only [Except.ok.injEq, Prod.mk.injEq, and_true]
        refine TreeVersion.nodeHash_congr fun j hj => ?_
        exact (ok.1.overlay_eq hd ha (Bool.eq_false_iff.2 lists) hj).symm

theorem emulateTreeRecursive_spec (hd : d ≤ rangeHeight) (pos : 0 < d) : ∀ {n : ℕ} {a : Address}
    {m : MaskImpl A I F}, a.Clean → a.length + n = d → m.Answers V d last →
    Bounds d m.view last → m.CanHash d a →
    ∃ m', emulateTreeRecursive V last n a m = .ok (V.nodeHash m.view n a.toIndex, m') ∧ Like V d last m m'
  | 0, a, m, _, ha, ok, _, can => leafHash_spec hd pos ha ok can
  | n + 1, a, m, clean, ha, ok, b, can => by
    refine hashFromChildren_spec (lawful hd can) b ?_ a m clean ha ⟨ok, rfl⟩
    intro a' m' clean' ha' like
    have view := view_of_strip like.2
    obtain ⟨m'', run, like'⟩ := orParent_spec (hd.trans (by decide)) ha'
      (fun m ok b can => emulateTreeRecursive_spec hd pos clean' ha' ok b can)
      (fun db s b => Database.emulateTreeRecursive_spec hd pos b n a' db clean' ha' ⟨s, rfl⟩)
      like.1 (by rw [view]; exact b)
    exact ⟨m'', by rw [← view]; exact run, like'.1, like'.2.trans like.2⟩

theorem computeHashOrParent_spec (hd : d ≤ rangeHeight) (pos : 0 < d) {n : ℕ} (clean : a.Clean)
    (ha : a.length + n = d) (ok : m.Answers V d last) (b : Bounds d m.view last) :
    ∃ m', computeHashOrParent V last n a m = .ok (V.nodeHash m.view n a.toIndex, m') ∧ Like V d last m m' :=
  orParent_spec (hd.trans (by decide)) ha
    (fun _ ok b can => emulateTreeRecursive_spec hd pos clean ha ok b can)
    (fun db s b => Database.emulateTreeRecursive_spec hd pos b n a db clean ha ⟨s, rfl⟩) ok b

/-! ## Paths -/

/-- The hash of the node `a` over a view, with the walk at the end of its path. -/
def walked (V : TreeVersion A I F) (view : ℕ → Option A) (n : ℕ) (a : Address) (w : Walk F) : F × Walk F :=
  (V.nodeHash view n a.toIndex, ⟨[], w.merklePath ++ siblings V.hashNode
    (fun j => V.leafHash (view j)) n a.toIndex (w.path.map Direction.bit)⟩)

theorem walked_congr {view view' : ℕ → Option A} {n : ℕ} {w : Walk F}
    (same : ∀ j, j / 2 ^ n = a.toIndex → view j = view' j) : walked V view n a w = walked V view' n a w := by
  rw [walked, walked, nodeHash_congr same, siblings_congr fun j hj => by rw [same j hj]]

/-- Delegation, along a path.  A cached hash is used only when nothing is left
    of the path. -/
theorem orParentForMerklePath_spec (hd : d ≤ nbits) {a : Address} {n : ℕ} (ha : a.length + n = d) (first : Bool)
    {w : Walk F} (atEnd : first = true ∨ w.path = [])
    {here : Walk F × MaskImpl A I F → Except Panic (F × (Walk F × MaskImpl A I F))}
    {atRoot : Walk F × Database A I F → Except Panic (F × (Walk F × Database A I F))}
    (hHere : ∀ m : MaskImpl A I F, m.Sound V d → Bounds d m.view last → ∃ m', here (w, m) = .ok ((walked V m.view n a w).1, ((walked V m.view n a w).2, m')) ∧ Like V d last m m')
    (hRoot : ∀ db : Database A I F, db.Sound V d → Bounds d db.getAtIndex last → ∃ db', atRoot (w, db) = .ok ((walked V db.getAtIndex n a w).1, ((walked V db.getAtIndex n a w).2, db')) ∧ Database.Like V d db db') :
    ∀ {m : MaskImpl A I F}, m.Sound V d → Bounds d m.view last →
      ∃ m', orParentForMerklePath a first here atRoot w m =
        .ok ((walked V m.view n a w).1, ((walked V m.view n a w).2, m')) ∧ Like V d last m m'
  | root db, s, b => by
    obtain ⟨db', run, like⟩ := hRoot db s b
    exact ⟨root db', by simp only [orParentForMerklePath, run, ok_bind]; rfl, like.1, congrArg root like.2⟩
  | attached own parent, s, b => by
    rw [orParentForMerklePath]
    split
    · next x cached =>
      -- a hash is read from the cache, so this is not the first call
      rcases atEnd with rfl | atEnd
      · cases cached
      · have cached : own.hashes.get a = some x := by
          cases first
          · exact cached
          · cases cached
        have ok : (attached own parent).Answers V d last := s.answers
        have right := ok.hashes.get hd (by omega) cached
        refine ⟨attached own parent, ?_, s.answers, rfl⟩
        obtain ⟨path, mp⟩ := w
        obtain rfl : path = [] := atEnd
        rw [right, show d - a.length = n by omega]
        cases n <;> simp [walked, siblings]
    · by_cases lists : own.listsBelow a = true
      · simp only [if_pos lists]
        exact hHere _ s b
      · simp only [if_neg lists]
        obtain ⟨parent', run, like⟩ :=
          orParentForMerklePath_spec hd ha first atEnd hHere hRoot s.2.2 (Bounds.parent b)
        refine ⟨attached own parent', ?_, like.attached s.answers⟩
        have same : walked V parent.view n a w = walked V (attached own parent).view n a w :=
          walked_congr fun j hj => (s.1.overlay_eq hd ha (Bool.eq_false_iff.2 lists) hj).symm
        rw [run, same]
        rfl

theorem emulateMerklePathRecursive_spec (hd : d ≤ rangeHeight) (pos : 0 < d) : ∀ (n : ℕ)
    {m : MaskImpl A I F}, m.Sound V d → Bounds d m.view last →
    PathsAt V d m.view (Like V d last m) n (emulateMerklePathRecursive V last n)
  | 0, m, s, b => by
    intro a w m₁ clean ha hw like
    obtain ⟨m', eq, like'⟩ := leafHash_spec hd pos ha like.1
      ((like.1.sound_of_strip like.2 s).canHash a)
    obtain ⟨path, mp⟩ := w
    obtain rfl : path = [] := length_eq_zero_iff.1 (le_zero.1 hw)
    refine ⟨m', ?_, like'.1, like'.2.trans like.2⟩
    show (leafHash V a m₁ >>= _) = _
    rw [eq, view_of_strip like.2]
    simp [siblings]
  | n + 1, m, s, b => by
    refine pathFromChildren_spec (lawful hd (s.canHash .root)) b (emulateMerklePathRecursive_spec hd pos n s b) ?_
    rintro mp a ⟨w, m₁⟩ clean ha ⟨rfl, like⟩
    have view := view_of_strip like.2
    obtain ⟨m', run, like'⟩ := orParentForMerklePath_spec
      (hd.trans (by decide)) ha false (Or.inr rfl)
      (fun m s b => emulateMerklePathRecursive_spec hd pos n s b a ⟨[], mp⟩ m clean ha
        (zero_le n) ⟨s.answers, rfl⟩)
      (fun db s b => Database.emulateTreeToGetPath_spec hd pos b n a ⟨[], mp⟩ db clean ha
        (zero_le n) ⟨s, rfl⟩)
      (like.1.sound_of_strip like.2 s) (by rw [view]; exact b)
    refine ⟨(⟨[], mp⟩, m'), ?_, rfl, like'.1, like'.2.trans like.2⟩
    simp only [run, view]
    cases n <;> simp [walked, siblings]

/-! ## Queries -/

theorem Answers.depth : ∀ {m : MaskImpl A I F}, m.Answers V d last → m.depth = d
  | root _, s => Database.Sound.depth s
  | attached _ _, ⟨s, _, _⟩ => s.depth

theorem lastFilled_attached (own : Layer A I F) (parent : MaskImpl A I F) :
    ((attached own parent).lastFilled = own.lastLocation ∨
      (attached own parent).lastFilled = parent.lastFilled) ∧
    ∀ i, Reaches own.lastLocation i ∨ Reaches parent.lastFilled i →
      Reaches (attached own parent).lastFilled i := by
  rw [lastFilled]
  cases parent.lastFilled with
  | none => exact ⟨Or.inl rfl, fun i h => h.resolve_right fun ⟨_, eq, _⟩ => by cases eq⟩
  | some lp =>
    cases own.lastLocation with
    | none => exact ⟨Or.inr rfl, fun i h => h.resolve_left fun ⟨_, eq, _⟩ => by cases eq⟩
    | some l =>
      simp only
      split
      · next lt =>
        refine ⟨Or.inl rfl, fun i h => ⟨l, rfl, ?_⟩⟩
        rcases h with ⟨_, eq, le⟩ | ⟨_, eq, le⟩
        · cases eq
          exact le
        · cases eq
          omega
      · next ge =>
        refine ⟨Or.inr rfl, fun i h => ⟨lp, rfl, ?_⟩⟩
        rcases h with ⟨_, eq, le⟩ | ⟨_, eq, le⟩
        · cases eq
          omega
        · cases eq
          exact le

theorem Answers.lastFilled : ∀ {m : MaskImpl A I F}, m.Answers V d last →
    (∀ l, m.lastFilled = some l → l.length = d) ∧ ∀ i, m.view i ≠ none → Reaches m.lastFilled i
  | root _, s => ⟨fun _ => Database.Sound.leaf s, fun _ => Database.Sound.le s⟩
  | attached own parent, ⟨s, _, p⟩ => by
    obtain ⟨leaf, le⟩ := Answers.lastFilled p
    obtain ⟨choice, reach⟩ := lastFilled_attached own parent
    refine ⟨fun l hl => ?_, fun i hi => reach i ?_⟩
    · rcases choice with eq | eq
      · exact s.leaf (eq ▸ hl)
      · exact leaf l (eq ▸ hl)
    · rw [view, overlay] at hi
      cases here : own.owningAccount.lookup i with
      | none =>
        rw [here] at hi
        exact Or.inr (le i hi)
      | some account => exact Or.inl (s.le (by rw [here]; rfl))

theorem Answers.bounds (ok : m.Answers V d last) (hd : d ≤ nbits) : Bounds d m.view m.lastAccount := by
  obtain ⟨leaf, le⟩ := ok.lastFilled
  refine ⟨hd, ?_, fun {j} some => ?_⟩
  · rw [lastAccount]
    cases h : m.lastFilled with
    | none => exact ok.depth
    | some l => exact leaf l h
  · obtain ⟨l, hl, le⟩ := le j some
    rw [lastAccount, hl]
    exact le

theorem emulateTreeToGetHashAt_spec (hd : d ≤ rangeHeight) (pos : 0 < d) (clean : a.Clean) (ha : a.length ≤ d)
    (ok : m.Answers V d m.lastAccount) :
    ∃ m', m.emulateTreeToGetHashAt V a = .ok (V.nodeHash m.view (d - a.length) a.toIndex, m') ∧
      Like V d m.lastAccount m m' := by
  have hb : d ≤ nbits := hd.trans (by decide)
  rw [emulateTreeToGetHashAt]
  cases cached : m.hashes.get a with
  | some x => exact ⟨m, by rw [ok.hashes.get hb ha cached], ok, rfl⟩
  | none =>
    simp only [ok.depth]
    exact computeHashOrParent_spec hd pos clean (by omega) ok (ok.bounds hb)

theorem merkleRoot_spec (hd : d ≤ rangeHeight) (pos : 0 < d) (ok : m.Answers V d m.lastAccount) :
    ∃ m', m.merkleRoot V = .ok (V.nodeHash m.view d 0, m') ∧ Like V d m.lastAccount m m' :=
  emulateTreeToGetHashAt_spec hd pos clean_root (zero_le d) ok

theorem getInnerHashAtAddr_spec (hd : d ≤ rangeHeight) (pos : 0 < d) (clean : a.Clean)
    (ok : m.Answers V d m.lastAccount) :
    ∃ r m', m.getInnerHashAtAddr V a = .ok (r, m') ∧ Like V d m.lastAccount m m' ∧
      (a.length ≤ d → r = .ok (V.nodeHash m.view (d - a.length) a.toIndex)) := by
  rw [getInnerHashAtAddr, ok.depth]
  split
  · next long => exact ⟨_, m, rfl, ⟨ok, rfl⟩, fun h => absurd h (not_le.2 long)⟩
  · next short =>
    obtain ⟨m', run, like⟩ := emulateTreeToGetHashAt_spec hd pos clean (not_lt.1 short) ok
    exact ⟨_, m', by rw [run]; rfl, like, fun _ => rfl⟩

/-- The path to an address, over a view: the siblings met on the way from the
    root, lowest first. -/
def pathTo (V : TreeVersion A I F) (d : ℕ) (view : ℕ → Option A) (a : Address) : List (MerklePath F) :=
  siblings V.hashNode (fun j => V.leafHash (view j)) d 0 (a.directions.map Direction.bit)

theorem climb_pathTo (view : ℕ → Option A) (ha : a.length ≤ d) (hd : d ≤ nbits) :
    Merkle.climb V.hashNode (d - a.length) (V.nodeHash view (d - a.length) a.toIndex)
      (pathTo V d view a) = V.nodeHash view d 0 := by
  have len : (a.directions.map Direction.bit).length = a.length := by simp [directions]
  have climbed : Merkle.climb V.hashNode (d - a.length)
      (V.nodeHash view (d - a.length) (Merkle.descend 0 (a.directions.map Direction.bit)))
      (siblings V.hashNode (fun j => V.leafHash (view j))
        (d - a.length + (a.directions.map Direction.bit).length) 0
        (a.directions.map Direction.bit)) = V.nodeHash view _ 0 :=
    Merkle.climb_siblings _ _ _
  rw [descend_directions (ha.trans hd), len, Nat.sub_add_cancel ha] at climbed
  exact climbed

theorem length_directions (a : Address) : a.directions.length = a.length := by
  simp [directions]

theorem merklePath_spec (hd : d ≤ rangeHeight) (pos : 0 < d) (ha : a.length ≤ d) :
    ∀ {m : MaskImpl A I F}, m.Sound V d →
    ∃ m', m.merklePath V a = .ok (pathTo V d m.view a, m') ∧ Like V d m.lastAccount m m'
  | root db, s => by
    have b : Bounds d db.getAtIndex db.lastAccount := Database.Sound.bounds s (hd.trans (by decide))
    obtain ⟨db', run, like⟩ := Database.emulateTreeToGetPath_spec hd pos b d .root
      ⟨a.directions, []⟩ db clean_root (zero_add d)
      (by rw [length_directions]; exact ha) ⟨s, rfl⟩
    refine ⟨root db', ?_, like.1, congrArg root like.2⟩
    simp only [merklePath, Database.merklePath, Database.Sound.depth s, run, ok_bind]
    rfl
  | attached own parent, s => by
    have ok : (attached own parent).Answers V d (attached own parent).lastAccount := s.answers
    have b := ok.bounds (hd.trans (by decide))
    obtain ⟨m', run, like⟩ := orParentForMerklePath_spec
      (hd.trans (by decide)) (zero_add d) true (Or.inl rfl)
      (fun m s b => emulateMerklePathRecursive_spec hd pos d s b .root ⟨a.directions, []⟩ m
        clean_root (zero_add d) (by rw [length_directions]; exact ha) ⟨s.answers, rfl⟩)
      (fun db s b => Database.emulateTreeToGetPath_spec hd pos b d .root ⟨a.directions, []⟩ db
        clean_root (zero_add d) (by rw [length_directions]; exact ha) ⟨s, rfl⟩) s b
    refine ⟨m', ?_, like⟩
    simp only [merklePath, ok.depth, run, ok_bind]
    rfl

end MaskImpl

end MinaRust.Ledger
