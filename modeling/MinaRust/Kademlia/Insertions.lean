/-
  Sequences of insertions into the routing table, and what is found in it.

  A table is as it should be exactly if the keys in the inner buckets have the index of their
  bucket, and so along all sequences of calls in which no split meets an entry at the
  boundary distance.
-/
import MinaRust.Kademlia.RoutingTable

namespace MinaRust.Kademlia.RoutingTable

open List

variable {P A : Type} {K : ℕ} {t : RoutingTable P A} {entry : Entry P A}

/-! ## Sound tables -/

/-- The routing table of the key `this` after the keys `accepted`. -/
structure Sound (K : ℕ) (this : Key) (t : RoutingTable P A) (accepted : List Key) : Prop where
  small : ∀ bucket ∈ t.buckets, bucket.length ≤ K
  distinct : ∀ bucket ∈ t.buckets, (bucket.map Entry.key).Nodup
  shares : ∀ i bucket, t.buckets[i]? = some bucket → ∀ e ∈ bucket, SharesBits this e.key i
  exactly : ∀ i bucket, i + 1 < t.buckets.length → t.buckets[i]? = some bucket →
    ∀ e ∈ bucket, ¬SharesBits this e.key (i + 1)
  found : ∀ key, ∃ result, t.lookUp key = .ok result ∧
    ((∃ e, result = some e ∧ e.key = key) ↔ key = this ∨ key ∈ accepted)

structure Tracks (K : ℕ) (this : Key) (s : RoutingTable P A × List Key) : Prop where
  shaped : Shaped K s.1
  own : s.1.thisKey = this
  holds : ∀ key, s.1.Holds key ↔ key = this ∨ key ∈ s.2

theorem lookUp_eq {front : List (Bucket P A)} {last bucket : Bucket P A} {key : Key}
    (shape : t.buckets = front ++ [last]) (here : t.buckets[min (t.index key) front.length]? = some bucket) :
    t.lookUp key = .ok (bucket.find? fun e => e.key == key) := by
  have count : t.buckets.length - 1 = front.length := by rw [shape]; simp
  rw [lookUp, checkedSub_of_le (by rw [shape]; simp), ok_bind, count, here]
  rfl

theorem Tracks.found {this : Key} {s : RoutingTable P A × List Key} (tracks : Tracks K this s) (exact : s.1.Exact)
    (key : Key) : ∃ result, s.1.lookUp key = .ok result ∧
      ((∃ e, result = some e ∧ e.key = key) ↔ key = this ∨ key ∈ s.2) := by
  obtain ⟨front, last, shape, -⟩ := tracks.shaped.own
  obtain ⟨bucket, here⟩ : ∃ bucket, s.1.buckets[min (s.1.index key) front.length]? = some bucket :=
    ⟨_, List.getElem?_eq_getElem (by rw [shape]; simp)⟩
  refine ⟨_, lookUp_eq shape here, ?_⟩
  rw [← tracks.holds]
  constructor
  · rintro ⟨e, found, rfl⟩
    exact ⟨bucket, mem_of_getElem? here, mem_map_of_mem (mem_of_find?_eq_some found)⟩
  · rintro ⟨b, mem, known⟩
    -- the bucket that holds the key is the one looked at
    obtain ⟨i, at_⟩ := mem_iff_getElem?.1 mem
    have bound := (List.getElem?_eq_some_iff.1 at_).1
    have low := tracks.shaped.shares i b at_ key known
    have slot : min (s.1.index key) front.length = i := by
      have count : s.1.buckets.length = front.length + 1 := by rw [shape]; simp
      by_cases inner : i + 1 < s.1.buckets.length
      · have := exact i b inner at_ key known
        omega
      · omega
    rw [slot, at_, Option.some_inj] at here
    subst here
    obtain ⟨e, mem, rfl⟩ := mem_map.1 known
    have any : (b.find? fun e' => e'.key == e.key).isSome := List.find?_isSome.2 ⟨e, mem, by simp⟩
    obtain ⟨e', found⟩ := Option.isSome_iff_exists.1 any
    exact ⟨e', found, by simpa using List.find?_some found⟩

variable {s : RoutingTable P A × List Key}

theorem Tracks.sound {this : Key} (tracks : Tracks K this s) (exact : s.1.Exact) : Sound K this s.1 s.2 := by
  have found := tracks.found exact
  obtain ⟨shaped, rfl, -⟩ := tracks
  have length := shaped.length
  refine ⟨shaped.small, shaped.distinct, ?_, ?_, found⟩
  · intro i bucket here e mem
    have bound := (List.getElem?_eq_some_iff.1 here).1
    exact (sharesBits_iff_le_toIndex (by omega)).2 (shaped.shares i bucket here e.key (mem_map_of_mem mem))
  · intro i bucket inner here e mem shares
    have more := (sharesBits_iff_le_toIndex (by omega)).1 shares
    have only := exact i bucket inner here e.key (mem_map_of_mem mem)
    rw [index] at only
    omega

theorem Tracks.exact {this : Key} (tracks : Tracks K this s) (sound : Sound K this s.1 s.2) : s.1.Exact := by
  obtain ⟨shaped, rfl, -⟩ := tracks
  have length := shaped.length
  intro i bucket inner here key known
  obtain ⟨e, mem, rfl⟩ := mem_map.1 known
  have low := shaped.shares i bucket here e.key known
  have high := sound.exactly i bucket inner here e mem
  rw [sharesBits_iff_le_toIndex (by omega)] at high
  rw [index] at low ⊢
  omega

theorem tracks_new (two : 2 ≤ K) (own : Entry P A) : Tracks K own.key (new own, []) := by
  refine ⟨⟨?_, ⟨[], [own], rfl, ?_⟩, ?_, ?_, ?_⟩, rfl, ?_⟩
  · simp [new]
  · simp [new, Bucket.keys]
  · simp [new]
    omega
  · simp [new, Bucket.keys]
  · intro i bucket here key mem
    simp [new, List.getElem?_singleton] at here
    omega
  · simp [new, Holds, Bucket.keys, eq_comm]

/-! ## Sequences of calls -/

variable [DecidableEq A]

theorem insert_outcome (two : 2 ≤ K) (shaped : Shaped K t) (some_ : entry.addrs ≠ []) :
    ∃ r, t.insert K entry = .ok r ∧ Outcome K entry t r := by
  obtain ⟨front, last, shape, -⟩ := shaped.own
  obtain ⟨r, run, outcome⟩ := insertLoop_outcome two 257 shaped shape (by omega)
  refine ⟨r, ?_, outcome⟩
  rw [insert, if_neg (by simpa using some_), checkedSub_of_le (by rw [shape]; simp), ok_bind]
  simpa [shape] using run

theorem insert_of_empty (none : entry.addrs = []) : t.insert K entry = .ok (.error .capacityExceeded, t) := by
  rw [insert, if_pos (by simp [none])]

/-- A call of `insert`, with a note of the keys that were accepted. -/
def insertNoting (K : ℕ) (s : RoutingTable P A × List Key) (entry : Entry P A) :
    Except Fault (RoutingTable P A × List Key) := do
  let (result, t) ← s.1.insert K entry
  .ok (t, if result.isOk then s.2 ++ [entry.key] else s.2)

theorem Tracks.insertNoting {this : Key} {s : RoutingTable P A × List Key} (two : 2 ≤ K) (tracks : Tracks K this s)
    (entry : Entry P A) : ∃ s', insertNoting K s entry = .ok s' ∧ Tracks K this s' := by
  by_cases none : entry.addrs = []
  · refine ⟨s, ?_, tracks⟩
    rw [RoutingTable.insertNoting, insert_of_empty none]
    rfl
  · obtain ⟨r, run, outcome⟩ := insert_outcome two tracks.shaped none
    refine ⟨_, by rw [RoutingTable.insertNoting, run]; rfl, ?_⟩
    refine ⟨tracks.shaped.outcome two outcome, (keeps_outcome outcome).1.trans tracks.own, fun key => ?_⟩
    rw [holds_outcome outcome, tracks.holds]
    cases r.1.isOk <;> simp [or_assoc]

/-- **The routing table**: every call of `insert` comes to its end, and the table is sound
    after every call exactly if no split meets an entry at its boundary distance. -/
theorem routing_table_sound_iff {K : ℕ} (two : 2 ≤ K) (own : Entry P A) (entries : List (Entry P A))
    (addrs : ∀ entry ∈ entries, entry.addrs ≠ []) :
    (∃ s, entries.foldlM (insertNoting K) (new own, []) = .ok s) ∧
    ((∀ before s, before <+: entries → before.foldlM (insertNoting K) (new own, []) = .ok s →
        Sound K own.key s.1 s.2) ↔
      ∀ before entry s s', before ++ [entry] <+: entries → before.foldlM (insertNoting K) (new own, []) = .ok s →
        insertNoting K s entry = .ok s' → s.1.Clean K entry) := by
  constructor
  · obtain ⟨s, run, -⟩ := foldlM_total (fun s entry tracks => Tracks.insertNoting two tracks entry) entries
      (tracks_new two own)
    exact ⟨s, run⟩
  · refine foldlM_good_iff (fun s => Tracks K own.key s ∧ s.1.Exact) ⟨tracks_new two own, ?_⟩
      (fun s inv => inv.1.sound inv.2) ?_
    · intro i bucket inner
      simp [new] at inner
    · rintro before entry s s' pre - last ⟨tracks, exact⟩
      have nonempty := addrs entry (pre.subset (by simp))
      obtain ⟨r, run, outcome⟩ := insert_outcome two tracks.shaped nonempty
      obtain ⟨s₁, last₁, tracks'⟩ := tracks.insertNoting two entry
      cases last₁.symm.trans last
      have table : s'.1 = r.2 := by
        rw [RoutingTable.insertNoting, run] at last
        cases last
        rfl
      have iff := exact_outcome_iff two tracks.shaped exact outcome
      rw [← table] at iff
      exact ⟨fun clean => ⟨tracks', iff.2 clean⟩, fun sound => iff.1 (tracks'.exact sound)⟩

def single (key : Key) : Entry ℕ ℕ := ⟨key, key.toNat, [0], .notConnected⟩

/-- A full table of two keys is split when a third one comes. -/
theorem routing_table_sound_two : ∃ s,
    [single (BitVec.ofNat 256 (2 ^ 255)), single 1].foldlM (insertNoting 2) (new (single 0), []) = .ok s ∧
      Sound 2 0 s.1 s.2 := by
  obtain ⟨s, run⟩ : ∃ s, [single (BitVec.ofNat 256 (2 ^ 255)), single 1].foldlM (insertNoting 2)
    (new (single 0), []) = .ok s := ⟨_, rfl⟩
  refine ⟨s, run, (routing_table_sound_iff (le_refl 2) (single 0) _ (by decide)).2.2 ?_ _ s
    (prefix_refl _) run⟩
  intro before entry s s' pre run _
  rcases before with _ | ⟨first, _ | ⟨second, before⟩⟩
  · obtain ⟨rfl, -⟩ := cons_prefix_cons.1 pre
    cases run
    decide +kernel
  · obtain ⟨rfl, later⟩ := cons_prefix_cons.1 pre
    obtain ⟨rfl, -⟩ := cons_prefix_cons.1 later
    cases run
    decide +kernel
  · have := pre.length_le
    simp at this

/-- The key at the distance `2 ^ 255 - 1` belongs to the bucket 1.  The split leaves it in
    the bucket 0, and it is not found any more. -/
theorem boundary_key_lost : ∃ s result,
    [single (BitVec.ofNat 256 (2 ^ 255 - 1)), single 1].foldlM (insertNoting 2) (new (single 0), []) = .ok s ∧
      BitVec.ofNat 256 (2 ^ 255 - 1) ∈ s.2 ∧ s.1.lookUp (BitVec.ofNat 256 (2 ^ 255 - 1)) = .ok result ∧
      result = none ∧ SharesBits 0 (BitVec.ofNat 256 (2 ^ 255 - 1)) 1 ∧
      s.1.buckets.length = 2 ∧ (s.1.buckets.map Bucket.keys)[0]? = some [BitVec.ofNat 256 (2 ^ 255 - 1)] := by
  refine ⟨_, _, rfl, by decide +kernel, rfl, ?_⟩
  decide +kernel

end MinaRust.Kademlia.RoutingTable
