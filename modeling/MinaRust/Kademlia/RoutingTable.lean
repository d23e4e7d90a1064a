/-
  The Kademlia routing table: buckets of at most `K` entries by their distance.

  A last bucket that is full is split in two, as often as needed.  The split leaves the
  entries at a distance of at least `U256::MAX >> n` in the bucket `n - 1`, while the bucket
  index of exactly that distance is `n`.
-/
import MinaRust.Lib.Checked
import MinaRust.Lib.Keyed
import MinaRust.Kademlia.Distance

namespace MinaRust.Kademlia

open List

inductive ConnectionType where
  | notConnected
  | connected
  | canConnect
  | cannotConnect
deriving DecidableEq, Repr

structure Entry (P A : Type) where
  key : Key
  peerId : P
  addrs : List A
  connection : ConnectionType
deriving DecidableEq, Repr

inductive InsertError where
  | capacityExceeded
deriving DecidableEq, Repr

/-- What would stop the program: an index outside the buckets, a subtraction below
zero, or a loop that goes on. -/
inductive Fault where
  | outOfBounds
  | underflow
  | running
deriving DecidableEq, Repr

/-- `P2pNetworkKadBucket` -/
abbrev Bucket (P A : Type) := List (Entry P A)

structure RoutingTable (P A : Type) where
  thisKey : Key
  buckets : List (Bucket P A)
deriving DecidableEq, Repr

variable {P A : Type}

namespace Entry

def maxAddrs : ℕ := 16

def pushAddrs [DecidableEq A] : List A → List A → List A
  | addrs, [] => addrs
  | addrs, addr :: rest =>
    if maxAddrs ≤ addrs.length then addrs
    else pushAddrs (if addrs.contains addr then addrs else addrs ++ [addr]) rest

def update [DecidableEq A] (entry e : Entry P A) : Entry P A :=
  { e with addrs := pushAddrs e.addrs (entry.addrs.filter fun addr => !e.addrs.contains addr) }

end Entry

namespace Bucket

def keys (bucket : Bucket P A) : List Key := bucket.map Entry.key

def canInsert (K : ℕ) (bucket : Bucket P A) (entry : Entry P A) : Bool :=
  decide (bucket.length < K) || bucket.any (·.key == entry.key)

/-- A known entry is updated in its place, a new one is pushed. -/
def insert [DecidableEq A] (bucket : Bucket P A) (entry : Entry P A) : Bucket P A × Bool :=
  if bucket.any (·.key == entry.key) then (replaceKey Entry.key entry.key entry.update bucket, false)
  else (bucket ++ [entry], true)

end Bucket

namespace RoutingTable

def new (thisEntry : Entry P A) : RoutingTable P A := ⟨thisEntry.key, [[thisEntry]]⟩

variable (t : RoutingTable P A)

/-- Entries not closer than the distance of `n` stay in the bucket `n - 1`. -/
def splitLast (n : ℕ) (last : Bucket P A) : RoutingTable P A :=
  let (bucket1, bucket2) := last.partition fun e => decide (Dist.ofIndex n ≤ t.thisKey.distance e.key)
  { t with buckets := t.buckets.dropLast ++ [bucket1, bucket2] }

variable (key : Key)

def index : ℕ := (t.thisKey.distance key).toIndex

def insertLoop [DecidableEq A] (K : ℕ) (entry : Entry P A) (index : ℕ) :
    ℕ → ℕ → RoutingTable P A → Except Fault (Except InsertError Bool × RoutingTable P A)
  | 0, _, _ => .error .running
  | rounds + 1, maxIndex, t =>
    if index < maxIndex then do
      let bucket ← okOr .outOfBounds t.buckets[index]?
      if bucket.canInsert K entry then
        .ok (.ok (bucket.insert entry).2, { t with buckets := t.buckets.set index (bucket.insert entry).1 })
      else .ok (.error .capacityExceeded, t)
    else do
      let bucket ← okOr .outOfBounds t.buckets[maxIndex]?
      if bucket.canInsert K entry then
        .ok (.ok (bucket.insert entry).2, { t with buckets := t.buckets.set maxIndex (bucket.insert entry).1 })
      else
        match t.buckets.getLast? with
        | some last => insertLoop K entry index rounds (maxIndex + 1) (t.splitLast (maxIndex + 1) last)
        | none => .ok (.error .capacityExceeded, t)

/-- The largest index of a bucket is `256`, so that there are never more rounds than this. -/
def insert [DecidableEq A] (K : ℕ) (t : RoutingTable P A) (entry : Entry P A) :
    Except Fault (Except InsertError Bool × RoutingTable P A) :=
  if entry.addrs.isEmpty then .ok (.error .capacityExceeded, t)
  else do
    let maxIndex ← checkedSub .underflow t.buckets.length 1
    insertLoop K entry (t.index entry.key) 257 maxIndex t

def lookUp : Except Fault (Option (Entry P A)) := do
  let last ← checkedSub .underflow t.buckets.length 1
  let bucket ← okOr .outOfBounds t.buckets[min (t.index key) last]?
  .ok (bucket.find? (·.key == key))

end RoutingTable

/-! ## Buckets -/

namespace Bucket

variable {bucket : Bucket P A} {entry : Entry P A} {K : ℕ}

theorem any_key_iff {key : Key} : (bucket.any fun e => e.key == key) = true ↔ key ∈ bucket.keys := by
  simp [keys]

theorem canInsert_iff : bucket.canInsert K entry = true ↔ bucket.length < K ∨ entry.key ∈ bucket.keys := by
  rw [canInsert, Bool.or_eq_true, decide_eq_true_iff, any_key_iff]

variable [DecidableEq A]

theorem keys_insert : (bucket.insert entry).1.keys =
    if entry.key ∈ bucket.keys then bucket.keys else bucket.keys ++ [entry.key] := by
  by_cases known : entry.key ∈ bucket.keys
  · rw [if_pos known, insert, if_pos (any_key_iff.2 known)]
    -- an update keeps the key
    have same := forall₂_replaceF (R := fun e e' : Entry P A => e.key = e'.key)
      (f := fun e => if e.key = entry.key then some (entry.update e) else none) (fun _ => rfl)
      (fun e e' eq => by
        split at eq
        · cases eq
          rfl
        · cases eq) bucket
    exact (forall₂_eq_eq_eq ▸ forall₂_map_left_iff.2 (forall₂_map_right_iff.2 same)).symm
  · rw [if_neg known, insert, if_neg fun found => known (any_key_iff.1 found)]
    simp [keys]

theorem mem_keys_insert {key : Key} :
    key ∈ (bucket.insert entry).1.keys ↔ key ∈ bucket.keys ∨ key = entry.key := by
  rw [keys_insert]
  split
  · next known => exact ⟨.inl, fun either => either.elim id fun eq => eq ▸ known⟩
  · simp

theorem nodup_keys_insert (distinct : bucket.keys.Nodup) : (bucket.insert entry).1.keys.Nodup := by
  rw [keys_insert]
  split
  · exact distinct
  · next new => exact (nodup_append_comm).1 (nodup_cons.2 ⟨new, distinct⟩)

theorem length_insert_le (can : bucket.canInsert K entry = true) (small : bucket.length ≤ K) :
    (bucket.insert entry).1.length ≤ K := by
  have counted : (bucket.insert entry).1.length = (bucket.insert entry).1.keys.length := by simp [keys]
  rw [counted, keys_insert]
  split
  · simpa [keys] using small
  · next new =>
    have room := (canInsert_iff.1 can).resolve_right new
    simpa [keys] using room

end Bucket

namespace RoutingTable

variable {K : ℕ} {t : RoutingTable P A} {entry : Entry P A} {r : Except InsertError Bool × RoutingTable P A}

/-- The last bucket has the own key, no bucket has more than `K` entries or one key twice, and a
    key in a bucket has at least its index. -/
structure Shaped (K : ℕ) (t : RoutingTable P A) : Prop where
  length : t.buckets.length ≤ 256
  own : ∃ front last, t.buckets = front ++ [last] ∧ t.thisKey ∈ last.keys
  small : ∀ bucket ∈ t.buckets, bucket.length ≤ K
  distinct : ∀ bucket ∈ t.buckets, bucket.keys.Nodup
  shares : ∀ i bucket, t.buckets[i]? = some bucket → ∀ key ∈ bucket.keys, i ≤ t.index key

@[simp] theorem index_buckets (t : RoutingTable P A) (buckets : List (Bucket P A)) (key : Key) :
    index { t with buckets := buckets } key = t.index key := rfl

@[simp] theorem index_splitLast (t : RoutingTable P A) (n : ℕ) (last : Bucket P A) (key : Key) :
    (t.splitLast n last).index key = t.index key := rfl

/-! ## The split -/

def closer (t : RoutingTable P A) (n : ℕ) (bucket : Bucket P A) : Bucket P A :=
  bucket.filter fun e => decide (t.thisKey.distance e.key < Dist.ofIndex n)

def farther (t : RoutingTable P A) (n : ℕ) (bucket : Bucket P A) : Bucket P A :=
  bucket.filter fun e => decide (Dist.ofIndex n ≤ t.thisKey.distance e.key)

variable {front : List (Bucket P A)} {last : Bucket P A}

theorem splitLast_eq (n : ℕ) (shape : t.buckets = front ++ [last]) :
    t.splitLast n last = { t with buckets := front ++ [t.farther n last, t.closer n last] } := by
  unfold splitLast
  rw [partition_eq_filter_filter, shape, dropLast_concat]
  simp only [farther, closer]
  congr 4
  refine filter_congr fun e _ => ?_
  simp [← decide_not, BitVec.not_le]

variable {bucket : Bucket P A}

theorem length_le_two (distinct : bucket.keys.Nodup) (near : ∀ key ∈ bucket.keys, 255 ≤ t.index key) (key : Key)
    (new : key ∉ bucket.keys) (deep : 255 ≤ t.index key) : bucket.length < 2 := by
  have nodup : (key :: bucket.keys).Nodup := nodup_cons.2 ⟨new, distinct⟩
  have two : (key :: bucket.keys) ⊆ [t.thisKey, t.thisKey ^^^ 1] := by
    intro k mem
    have deep : 255 ≤ t.index k := by
      rcases mem_cons.1 mem with rfl | mem
      · exact deep
      · exact near k mem
    have small := (Dist.le_toIndex_iff (by norm_num)).1 deep
    have cases : t.thisKey ^^^ k = 0 ∨ t.thisKey ^^^ k = 1 := by
      have : (t.thisKey ^^^ k).toNat = 0 ∨ (t.thisKey ^^^ k).toNat = 1 := by
        rw [← Nat.le_one_iff_eq_zero_or_eq_one, ← Nat.lt_succ_iff]
        exact small
      exact this.imp (fun eq => BitVec.eq_of_toNat_eq eq) fun eq => BitVec.eq_of_toNat_eq eq
    have back : k = t.thisKey ^^^ (t.thisKey ^^^ k) := by rw [← BitVec.xor_assoc, BitVec.xor_self, BitVec.zero_xor]
    rw [back]
    rcases cases with eq | eq
    · simp [eq]
    · simp [eq]
  have counted := (nodup.subperm two).length_le
  simpa [Bucket.keys] using counted


theorem getElem?_pair {α : Type} {l : List α} {a b x : α} {i : ℕ} (here : (l ++ [a, b])[i]? = some x) :
    l[i]? = some x ∨ (i = l.length ∧ x = a) ∨ (i = l.length + 1 ∧ x = b) := by
  rw [List.getElem?_append] at here
  split at here
  · exact .inl here
  · next outside =>
    obtain ⟨k, rfl⟩ := Nat.exists_eq_add_of_le (not_lt.1 outside)
    rcases k with _ | _ | k
    · exact .inr (.inl ⟨rfl, by simpa using here.symm⟩)
    · exact .inr (.inr ⟨rfl, by simpa using here.symm⟩)
    · simp at here

variable {key : Key} {n : ℕ}

theorem mem_keys_closer :
    key ∈ (t.closer n bucket).keys ↔ key ∈ bucket.keys ∧ t.thisKey.distance key < Dist.ofIndex n := by
  simp [closer, Bucket.keys, mem_map, mem_filter]
  grind

theorem mem_keys_farther :
    key ∈ (t.farther n bucket).keys ↔ key ∈ bucket.keys ∧ Dist.ofIndex n ≤ t.thisKey.distance key := by
  simp [farther, Bucket.keys, mem_map, mem_filter]
  grind

namespace Shaped

variable {front : List (Bucket P A)} {last : Bucket P A}

theorem length_lt (shaped : Shaped K t) (two : 2 ≤ K) (shape : t.buckets = front ++ [last])
    (deep : front.length ≤ t.index entry.key) (no : last.canInsert K entry = false) : front.length < 255 := by
  have length := shaped.length
  rw [shape, length_append, length_singleton] at length
  by_contra outside
  have eq : front.length = 255 := by omega
  have here : t.buckets[front.length]? = some last := by rw [shape]; simp
  have refused : ¬(last.length < K ∨ entry.key ∈ last.keys) := by
    rw [← Bucket.canInsert_iff, no]
    exact Bool.false_ne_true
  have near : ∀ key ∈ last.keys, 255 ≤ t.index key := fun key mem => eq ▸ shaped.shares _ last here key mem
  have few := length_le_two (shaped.distinct last (mem_of_getElem? here)) near entry.key
    (fun mem => refused (.inr mem)) (eq ▸ deep)
  exact refused (.inl (few.trans_le two))

theorem split (shaped : Shaped K t) (shape : t.buckets = front ++ [last]) (inside : front.length < 255) :
    Shaped K (t.splitLast (front.length + 1) last) := by
  have mem : last ∈ t.buckets := by rw [shape]; simp
  have here : t.buckets[front.length]? = some last := by rw [shape]; simp
  have sub : ∀ bucket ∈ front ++ [t.farther (front.length + 1) last, t.closer (front.length + 1) last],
      ∃ bucket' ∈ t.buckets, bucket.Sublist bucket' := by
    intro bucket mem'
    simp only [mem_append, mem_cons, not_mem_nil, or_false] at mem'
    rcases mem' with old | rfl | rfl
    · exact ⟨bucket, by rw [shape]; simp [old], .refl _⟩
    · exact ⟨last, mem, filter_sublist⟩
    · exact ⟨last, mem, filter_sublist⟩
  rw [splitLast_eq _ shape]
  constructor
  · simp
    omega
  · obtain ⟨front', last', shape', own⟩ := shaped.own
    obtain ⟨-, rfl⟩ := append_singleton_inj.1 (shape'.symm.trans shape)
    refine ⟨front ++ [t.farther (front.length + 1) last'], t.closer (front.length + 1) last', by simp, ?_⟩
    rw [mem_keys_closer, Key.distance_self]
    refine ⟨own, ?_⟩
    rw [BitVec.lt_def, Dist.toNat_ofIndex]
    have : 2 ^ 1 ≤ 2 ^ (256 - (front.length + 1)) := Nat.pow_le_pow_right (by norm_num) (by omega)
    simp only [BitVec.toNat_zero, BitVec.ofNat_eq_ofNat]
    omega
  · intro bucket mem'
    obtain ⟨bucket', old, sub⟩ := sub bucket mem'
    exact sub.length_le.trans (shaped.small bucket' old)
  · intro bucket mem'
    obtain ⟨bucket', old, sub⟩ := sub bucket mem'
    exact (shaped.distinct bucket' old).sublist (sub.map _)
  · intro i bucket at_ key mem'
    rcases getElem?_pair at_ with old | ⟨rfl, rfl⟩ | ⟨rfl, rfl⟩
    · exact shaped.shares i bucket (by
        rw [shape, List.getElem?_append_left (List.getElem?_eq_some_iff.1 old).1, old]) key mem'
    · exact shaped.shares _ last here key (mem_keys_farther.1 mem').1
    · exact Dist.le_toIndex_of_lt (by omega) (mem_keys_closer.1 mem').2

end Shaped

/-! ## The keys of a table -/

def Holds (t : RoutingTable P A) (key : Key) : Prop := ∃ bucket ∈ t.buckets, key ∈ bucket.keys

theorem holds_splitLast (shape : t.buckets = front ++ [last]) :
    (t.splitLast n last).Holds key ↔ t.Holds key := by
  have either : key ∈ last.keys ↔ key ∈ (t.farther n last).keys ∨ key ∈ (t.closer n last).keys := by
    rw [mem_keys_farther, mem_keys_closer, ← and_or_left, and_iff_left]
    exact (em _).symm.imp_left BitVec.not_lt.1
  rw [splitLast_eq _ shape, Holds, Holds, shape]
  simp [or_and_right, exists_or, either]

/-! ## Buckets of exactly their index -/

/-- The keys in every bucket but the last have exactly its index. -/
def Exact (t : RoutingTable P A) : Prop :=
  ∀ i bucket, i + 1 < t.buckets.length → t.buckets[i]? = some bucket → ∀ key ∈ bucket.keys, t.index key = i

/-- What is left of the last bucket once it has been split down to the bucket `n`. -/
def pending (t : RoutingTable P A) (n : ℕ) (last : Bucket P A) : Bucket P A :=
  if t.buckets.length = n + 1 then last else t.closer n last

def AtBoundary (t : RoutingTable P A) (n : ℕ) (bucket : Bucket P A) : Prop :=
  ∃ e ∈ bucket, t.thisKey.distance e.key = Dist.ofIndex n

/-- No split that the insertion makes meets an entry at its boundary distance. -/
def Clean (K : ℕ) (t : RoutingTable P A) (entry : Entry P A) : Prop :=
  ∀ last ∈ t.buckets.getLast?, entry.key ∉ last.keys →
    ∀ n ≤ t.index entry.key, t.buckets.length ≤ n + 1 → K ≤ (t.pending n last).length →
      ¬t.AtBoundary (n + 1) last

theorem atBoundary_iff :
    t.AtBoundary n bucket ↔ ∃ key ∈ bucket.keys, t.thisKey.distance key = Dist.ofIndex n := by
  simp [AtBoundary, Bucket.keys]

instance (t : RoutingTable P A) (n : ℕ) (bucket : Bucket P A) : Decidable (t.AtBoundary n bucket) :=
  inferInstanceAs (Decidable (∃ e ∈ bucket, t.thisKey.distance e.key = Dist.ofIndex n))

instance (K : ℕ) (t : RoutingTable P A) (entry : Entry P A) : Decidable (t.Clean K entry) :=
  inferInstanceAs (Decidable (∀ last ∈ t.buckets.getLast?, entry.key ∉ last.keys →
    ∀ n ≤ t.index entry.key, t.buckets.length ≤ n + 1 → K ≤ (t.pending n last).length →
      ¬t.AtBoundary (n + 1) last))

theorem length_pending_le (t : RoutingTable P A) (n : ℕ) (last : Bucket P A) :
    (t.pending n last).length ≤ last.length := by
  unfold pending
  split
  · rfl
  · exact length_filter_le ..

theorem closer_closer {m : ℕ} (le : m ≤ n) (inside : m < 256) (last : Bucket P A) :
    t.closer n (t.closer m last) = t.closer n last := by
  rw [closer, closer, filter_filter]
  refine filter_congr fun e _ => ?_
  rw [← Bool.decide_and, decide_eq_decide, and_iff_left_iff_imp]
  intro near
  rcases le.eq_or_lt with rfl | lt
  · exact near
  · exact BitVec.lt_trans near (Dist.ofIndex_lt lt inside)

section
variable {front : List (Bucket P A)} {last : Bucket P A}

theorem clean_splitLast_iff (shape : t.buckets = front ++ [last]) (inside : front.length < 255)
    (deep : front.length ≤ t.index entry.key) (no : last.canInsert K entry = false) :
    t.Clean K entry ↔ ¬t.AtBoundary (front.length + 1) last ∧
        (t.splitLast (front.length + 1) last).Clean K entry := by
  have refused : ¬(last.length < K ∨ entry.key ∈ last.keys) := by
    rw [← Bucket.canInsert_iff, no]
    exact Bool.false_ne_true
  obtain ⟨full, new⟩ := not_or.1 refused
  have top : t.buckets.getLast? = some last := by rw [shape, getLast?_concat]
  have count : t.buckets.length = front.length + 1 := by rw [shape]; simp
  -- the next split starts from the closer entries
  have rest : (t.splitLast (front.length + 1) last).Clean K entry ↔
      ∀ n ≤ t.index entry.key, front.length + 1 ≤ n → K ≤ (t.closer n last).length →
        ¬t.AtBoundary (n + 1) last := by
    have shape' := splitLast_eq (front.length + 1) shape
    have top' : (t.splitLast (front.length + 1) last).buckets.getLast? =
        some (t.closer (front.length + 1) last) := by
      rw [shape']
      simp
    have count' : (t.splitLast (front.length + 1) last).buckets.length = front.length + 2 := by
      rw [shape']
      simp
    have left : ∀ n, front.length + 1 ≤ n →
        (t.splitLast (front.length + 1) last).pending n (t.closer (front.length + 1) last) = t.closer n last := by
      intro n below
      rw [pending]
      split
      · next eq => rw [show front.length + 1 = n by omega]
      · exact closer_closer below (by omega) last
    unfold Clean
    simp only [top', count', index_splitLast, Option.mem_some_iff, forall_eq']
    constructor
    · rintro clean n small below fill boundary
      obtain ⟨key, mem, eq⟩ := atBoundary_iff.1 boundary
      refine clean (fun mem => new (mem_keys_closer.1 mem).1) n small (by omega) (by rwa [left n below])
        (atBoundary_iff.2 ⟨key, ?_, eq⟩)
      exact mem_keys_closer.2 ⟨mem, eq ▸ Dist.ofIndex_lt (by omega) (by omega)⟩
    · rintro clean - n small below fill boundary
      obtain ⟨key, mem, eq⟩ := atBoundary_iff.1 boundary
      exact clean n small (by omega) (by rwa [left n (by omega)] at fill)
        (atBoundary_iff.2 ⟨key, (mem_keys_closer.1 mem).1, eq⟩)
  rw [rest]
  unfold Clean
  simp only [top, count, Option.mem_some_iff, forall_eq']
  constructor
  · intro clean
    refine ⟨clean new _ deep le_rfl (by simpa [pending, count] using full), fun n small below fill => ?_⟩
    refine clean new n small (by omega) ?_
    rwa [pending, if_neg (by omega)]
  · rintro ⟨first, later⟩ - n small below fill
    rcases (Nat.le_of_succ_le_succ below).eq_or_lt with rfl | lt
    · exact first
    · refine later n small lt ?_
      rwa [pending, if_neg (by omega)] at fill

theorem exact_splitLast (shaped : Shaped K t) (shape : t.buckets = front ++ [last]) (inside : front.length < 255)
    (exact : t.Exact) (clean : ¬t.AtBoundary (front.length + 1) last) :
    (t.splitLast (front.length + 1) last).Exact := by
  have here : t.buckets[front.length]? = some last := by rw [shape]; simp
  rw [splitLast_eq _ shape]
  intro i bucket inner at_ key mem
  rcases getElem?_pair at_ with old | ⟨rfl, rfl⟩ | ⟨rfl, rfl⟩
  · have bound := (List.getElem?_eq_some_iff.1 old).1
    refine exact i bucket (by rw [shape]; simpa using bound) ?_ key mem
    rw [shape, List.getElem?_append_left bound, old]
  · -- what stays is farther than the boundary
    obtain ⟨known, farther⟩ := mem_keys_farther.1 mem
    have low := shaped.shares _ last here key known
    have high := (Dist.toIndex_lt_iff (by omega) farther).2 fun eq => clean (atBoundary_iff.2 ⟨key, known, eq⟩)
    exact le_antisymm (Nat.le_of_lt_succ high) low
  · simp at inner

theorem not_exact_splitLast (inside : front.length < 255) (known : key ∈ last.keys)
    (boundary : t.thisKey.distance key = Dist.ofIndex (front.length + 1)) :
    key ∈ (t.farther (front.length + 1) last).keys ∧ t.index key ≠ front.length := by
  have farther : Dist.ofIndex (front.length + 1) ≤ t.thisKey.distance key := boundary ▸ BitVec.le_refl _
  refine ⟨mem_keys_farther.2 ⟨known, farther⟩, fun eq => ?_⟩
  exact (Dist.toIndex_lt_iff (by omega) farther).1 (eq ▸ Nat.lt_succ_self _) boundary

end

variable [DecidableEq A]

/-! ## How an insertion can end -/

/-- The ways the loop ends: an inner bucket is full, a bucket takes the entry, or the
last bucket is split first. -/
inductive Outcome (K : ℕ) (entry : Entry P A) :
    RoutingTable P A → Except InsertError Bool × RoutingTable P A → Prop
  | full {t : RoutingTable P A} (inner : t.index entry.key + 1 < t.buckets.length) :
      Outcome K entry t (.error .capacityExceeded, t)
  | put {t : RoutingTable P A} {i : ℕ} {bucket : Bucket P A}
      (slot : i = min (t.index entry.key) (t.buckets.length - 1)) (here : t.buckets[i]? = some bucket)
      (can : bucket.canInsert K entry = true) :
      Outcome K entry t
        (.ok (bucket.insert entry).2, { t with buckets := t.buckets.set i (bucket.insert entry).1 })
  | split {t : RoutingTable P A} {front : List (Bucket P A)} {last : Bucket P A}
      {r : Except InsertError Bool × RoutingTable P A} (shape : t.buckets = front ++ [last])
      (deep : front.length ≤ t.index entry.key) (no : last.canInsert K entry = false)
      (next : Outcome K entry (t.splitLast (front.length + 1) last) r) : Outcome K entry t r

theorem insertLoop_outcome (two : 2 ≤ K) (rounds : ℕ) (shaped : Shaped K t)
    (shape : t.buckets = front ++ [last]) (enough : 256 < rounds + front.length) :
    ∃ r, insertLoop K entry (t.index entry.key) rounds front.length t = .ok r ∧ Outcome K entry t r := by
  induction rounds generalizing t front last with
  | zero =>
    have length := shaped.length
    rw [shape, length_append] at length
    omega
  | succ rounds ih =>
    have count : t.buckets.length - 1 = front.length := by rw [shape]; simp
    rw [insertLoop]
    split
    · -- an inner bucket
      next inner =>
      have bound : t.index entry.key < t.buckets.length := by omega
      rw [List.getElem?_eq_getElem bound, okOr, ok_bind]
      split
      · next can =>
        exact ⟨_, rfl, .put (by omega) (List.getElem?_eq_getElem bound) can⟩
      · exact ⟨_, rfl, .full (by omega)⟩
    · next deep =>
      have here : t.buckets[front.length]? = some last := by rw [shape]; simp
      rw [here, okOr, ok_bind]
      split
      · next can => exact ⟨_, rfl, .put (by omega) here can⟩
      · next no =>
        rw [Bool.not_eq_true] at no
        have inside := shaped.length_lt two shape (not_lt.1 deep) no
        have top : t.buckets.getLast? = some last := by rw [shape, getLast?_concat]
        rw [top]
        have shape' : (t.splitLast (front.length + 1) last).buckets =
            (front ++ [t.farther (front.length + 1) last]) ++ [t.closer (front.length + 1) last] := by
          rw [splitLast_eq _ shape]
          simp
        obtain ⟨r, run, outcome⟩ := ih (shaped.split shape inside) shape' (by simp; omega)
        exact ⟨r, by simpa using run, .split shape (not_lt.1 deep) no outcome⟩

namespace Shaped

theorem put (shaped : Shaped K t) {i : ℕ} (here : t.buckets[i]? = some bucket) (near : i ≤ t.index entry.key)
    (can : bucket.canInsert K entry = true) :
    Shaped K { t with buckets := t.buckets.set i (bucket.insert entry).1 } := by
  have old := mem_of_getElem? here
  constructor
  · simpa using shaped.length
  · obtain ⟨front, last, shape, own⟩ := shaped.own
    by_cases inner : i < front.length
    · exact ⟨front.set i (bucket.insert entry).1, last, by simp [shape, set_append_left _ _ inner], own⟩
    · have bound := (List.getElem?_eq_some_iff.1 here).1
      rw [shape, length_append, length_singleton] at bound
      obtain rfl : i = front.length := by omega
      rw [shape, List.getElem?_concat_length, Option.some_inj] at here
      subst here
      exact ⟨front, (last.insert entry).1, by simp [shape], Bucket.mem_keys_insert.2 (.inl own)⟩
  · intro b mem
    rcases mem_or_eq_of_mem_set mem with mem | rfl
    · exact shaped.small b mem
    · exact Bucket.length_insert_le can (shaped.small bucket old)
  · intro b mem
    rcases mem_or_eq_of_mem_set mem with mem | rfl
    · exact shaped.distinct b mem
    · exact Bucket.nodup_keys_insert (shaped.distinct bucket old)
  · intro j b at_ key mem
    rw [List.getElem?_set] at at_
    split at at_
    · next eq =>
      subst eq
      split at at_
      · cases at_
        rcases Bucket.mem_keys_insert.1 mem with mem | rfl
        · exact shaped.shares i bucket here key mem
        · exact near
      · cases at_
    · exact shaped.shares j b at_ key mem

theorem outcome (shaped : Shaped K t) (two : 2 ≤ K) (outcome : Outcome K entry t r) : Shaped K r.2 := by
  induction outcome with
  | full => exact shaped
  | put slot here can => exact shaped.put here (slot ▸ min_le_left ..) can
  | split shape deep no _ ih => exact ih (shaped.split shape (shaped.length_lt two shape deep no))

end Shaped

theorem holds_put {i : ℕ} (here : t.buckets[i]? = some bucket) :
    Holds { t with buckets := t.buckets.set i (bucket.insert entry).1 } key ↔
      t.Holds key ∨ key = entry.key := by
  have bound := (List.getElem?_eq_some_iff.1 here).1
  have placed : (bucket.insert entry).1 ∈ t.buckets.set i (bucket.insert entry).1 :=
    mem_set bound _
  constructor
  · rintro ⟨b, mem, known⟩
    rcases mem_or_eq_of_mem_set mem with mem | rfl
    · exact .inl ⟨b, mem, known⟩
    · exact (Bucket.mem_keys_insert.1 known).imp_left fun known => ⟨bucket, mem_of_getElem? here, known⟩
  · rintro (⟨b, mem, known⟩ | rfl)
    · obtain ⟨j, at_⟩ := mem_iff_getElem?.1 mem
      by_cases same : i = j
      · -- the bucket that changes keeps its keys
        subst same
        cases here.symm.trans at_
        exact ⟨_, placed, Bucket.mem_keys_insert.2 (.inl known)⟩
      · exact ⟨b, mem_of_getElem? ((List.getElem?_set_ne same).trans at_), known⟩
    · exact ⟨_, placed, Bucket.mem_keys_insert.2 (.inr rfl)⟩

theorem holds_outcome (outcome : Outcome K entry t r) :
    r.2.Holds key ↔ t.Holds key ∨ (r.1.isOk ∧ key = entry.key) := by
  induction outcome with
  | full => simp [Except.isOk, Except.toBool]
  | put slot here can => simp [holds_put here, Except.isOk, Except.toBool]
  | split shape deep no _ ih => rw [ih, holds_splitLast shape]

theorem keeps_outcome (outcome : Outcome K entry t r) :
    r.2.thisKey = t.thisKey ∧ t.buckets.length ≤ r.2.buckets.length ∧
      ∀ i bucket, i + 1 < t.buckets.length → t.buckets[i]? = some bucket →
        ∃ bucket', r.2.buckets[i]? = some bucket' ∧ bucket.keys ⊆ bucket'.keys := by
  induction outcome with
  | full => exact ⟨rfl, le_rfl, fun i bucket _ here => ⟨bucket, here, List.Subset.refl _⟩⟩
  | @put t i bucket slot here can =>
    refine ⟨rfl, by simp, fun j b _ at_ => ?_⟩
    by_cases same : i = j
    · subst same
      cases here.symm.trans at_
      have bound := (List.getElem?_eq_some_iff.1 here).1
      exact ⟨_, List.getElem?_set_self bound, fun key mem => Bucket.mem_keys_insert.2 (.inl mem)⟩
    · exact ⟨b, (List.getElem?_set_ne same).trans at_, List.Subset.refl _⟩
  | @split t front last r shape deep no _ ih =>
    have shape' := splitLast_eq (front.length + 1) shape
    rw [shape'] at ih
    obtain ⟨this, grows, keeps⟩ := ih
    simp only [length_append, length_cons, length_nil] at grows keeps
    refine ⟨this, by rw [shape]; simp; omega, fun i bucket inner at_ => ?_⟩
    rw [shape, length_append, length_singleton] at inner
    rw [shape, List.getElem?_append_left (by omega)] at at_
    exact keeps i bucket (by omega) (by rw [List.getElem?_append_left (by omega), at_])

theorem exact_outcome_iff (two : 2 ≤ K) (shaped : Shaped K t) (exact : t.Exact) (outcome : Outcome K entry t r) :
    r.2.Exact ↔ t.Clean K entry := by
  induction outcome with
  | @full t inner =>
    refine iff_of_true exact fun last _ _ n small below => ?_
    omega
  | @put t i bucket slot here can =>
    refine iff_of_true ?_ fun last top new n small below fill => ?_
    · intro j b inner at_ key mem
      rw [length_set] at inner
      rw [List.getElem?_set] at at_
      split at at_
      · next eq =>
        subst eq
        rw [if_pos (by omega)] at at_
        cases at_
        rcases Bucket.mem_keys_insert.1 mem with mem | rfl
        · exact exact i bucket inner here key mem
        · simp only [index_buckets]
          omega
      · exact exact j b inner at_ key mem
    · -- the bucket that took the entry was the last one, and not full
      obtain ⟨front, shape⟩ := List.getLast?_eq_some_iff.1 top
      obtain rfl : i = front.length := by
        rw [shape] at slot below
        simp at slot below
        omega
      rw [shape, List.getElem?_concat_length, Option.some_inj] at here
      subst here
      have room := (Bucket.canInsert_iff.1 can).resolve_right new
      have few := t.length_pending_le n last
      omega
  | @split t front last r shape deep no next ih =>
    have inside := shaped.length_lt two shape deep no
    rw [clean_splitLast_iff shape inside deep no]
    constructor
    · intro result
      have clean : ¬t.AtBoundary (front.length + 1) last := by
        intro boundary
        obtain ⟨key, known, boundary⟩ := atBoundary_iff.1 boundary
        obtain ⟨stays, wrong⟩ := not_exact_splitLast inside known boundary
        obtain ⟨this, grows, keeps⟩ := keeps_outcome next
        rw [splitLast_eq _ shape] at this grows keeps
        simp only [length_append, length_cons, length_nil] at grows keeps
        obtain ⟨bucket, here, sub⟩ := keeps front.length (t.farther (front.length + 1) last) (by omega) (by simp)
        have same := result front.length bucket (by omega) here key (sub stays)
        rw [index, this] at same
        exact wrong same
      exact ⟨clean, (ih (shaped.split shape inside) (exact_splitLast shaped shape inside exact clean)).1 result⟩
    · rintro ⟨clean, rest⟩
      exact (ih (shaped.split shape inside) (exact_splitLast shaped shape inside exact clean)).2 rest

end RoutingTable

end MinaRust.Kademlia
