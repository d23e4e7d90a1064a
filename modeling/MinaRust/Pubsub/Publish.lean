/-
  The filter of recently published messages.

  A client keeps the ids of the last messages it was given, as a set (what was sent) and as
  a queue (what to forget next).  An id that is given twice is in the queue twice but in the
  set once, so it is forgotten when its first place in the queue is reached.
-/
import MinaRust.Pubsub.Framing

namespace MinaRust.Pubsub

open List OrdMap

variable {P T S B W H J I : Type} [LinearOrder S] {env : Env P T S B W H J}
  {ids before : List I} {new id : I}

/-! ## The last fifty calls -/

def lastFifty (ids : List I) : List I := ids.drop (ids.length - 50)

/-- An id that was given, and not taken from the front of the queue since. -/
def Held (ids : List I) (id : I) : Prop :=
  ∃ m, ids[m]? = some id ∧ ∀ k, m ≤ k → k < ids.length → 50 ≤ k → ids[k - 50]? ≠ some id

/-- No id comes a third time within fifty calls of the second, but not of the first. -/
def NoLateThird (ids : List I) : Prop :=
  ∀ i j k id, i < j → j < k → ids[i]? = some id → ids[j]? = some id → ids[k]? = some id →
    j ≤ i + 50 → k ≤ j + 50 → k ≤ i + 50

theorem lt_length {m : ℕ} (here : ids[m]? = some id) : m < ids.length :=
  (List.getElem?_eq_some_iff.1 here).1

theorem mem_lastFifty :
    id ∈ lastFifty ids ↔ ∃ m, ids[m]? = some id ∧ ids.length ≤ m + 50 := by
  simp only [lastFifty, mem_iff_getElem?, getElem?_drop]
  constructor
  · rintro ⟨m, here⟩
    exact ⟨_, here, by omega⟩
  · rintro ⟨m, here, late⟩
    refine ⟨m - (ids.length - 50), ?_⟩
    rw [Nat.add_sub_cancel' (by omega)]
    exact here

theorem Held.mem_lastFifty (held : Held ids id) : id ∈ lastFifty ids := by
  obtain ⟨m, here, kept⟩ := held
  refine Pubsub.mem_lastFifty.2 ⟨m, here, ?_⟩
  by_contra early
  refine kept (m + 50) (by omega) (by omega) (by omega) ?_
  rw [Nat.add_sub_cancel]
  exact here

/-- One call: the new id is in the set, and the id that leaves the queue is not. -/
theorem held_append : Held (ids ++ [new]) id ↔
    (id = new ∨ Held ids id) ∧ (50 ≤ ids.length → (ids ++ [new])[ids.length - 50]? ≠ some id) := by
  constructor
  · rintro ⟨m, here, kept⟩
    have bound : m < (ids ++ [new]).length := lt_length here
    rw [length_append, length_singleton] at bound kept
    refine ⟨?_, fun full => kept ids.length (by omega) (by omega) full⟩
    rcases Nat.lt_succ_iff_lt_or_eq.1 bound with old | rfl
    · rw [getElem?_append_left old] at here
      refine .inr ⟨m, here, fun k le lt full => ?_⟩
      have := kept k le (by omega) full
      rwa [getElem?_append_left (by omega)] at this
    · simp only [getElem?_concat_length, Option.some.injEq] at here
      exact .inl here.symm
  · rintro ⟨rfl | ⟨m, here, kept⟩, last⟩
    · refine ⟨ids.length, getElem?_concat_length, fun k le lt full => ?_⟩
      rw [length_append, length_singleton] at lt
      obtain rfl : k = ids.length := by omega
      exact last full
    · have bound : m < ids.length := lt_length here
      refine ⟨m, by rwa [getElem?_append_left bound], fun k le lt full => ?_⟩
      rw [length_append, length_singleton] at lt
      rcases Nat.lt_succ_iff_lt_or_eq.1 lt with old | rfl
      · rw [getElem?_append_left (by omega)]
        exact kept k le old full
      · exact last full

/-! ## When the set has the last fifty ids -/

theorem NoLateThird.held (once : NoLateThird ids) (here : before ++ [id] <+: ids)
    (mem : id ∈ lastFifty before) : Held before id := by
  obtain ⟨after, rfl⟩ := here
  obtain ⟨m, second, late⟩ := mem_lastFifty.1 mem
  have bound := lt_length second
  refine ⟨m, second, fun k le lt full first => ?_⟩
  rw [append_assoc] at once
  have third : (before ++ ([id] ++ after))[before.length]? = some id := by simp
  rw [← getElem?_append_left (by omega)] at first second
  have := once _ m _ id (by omega) bound first second third (by omega) late
  omega

/-- A third call that is late is not recognised, unless there was a late one before it. -/
theorem noLateThird_iff : NoLateThird ids ↔
    ∀ before id, before ++ [id] <+: ids → (id ∈ lastFifty before ↔ Held before id) := by
  refine ⟨fun once before id here => ⟨once.held here, Held.mem_lastFifty⟩, ?_⟩
  intro held i j k id lt₁ lt₂ first second third near₁ near₂
  induction k using Nat.strong_induction_on with
  | _ k ih =>
    by_contra late
    have here : ids.take k ++ [id] <+: ids := by
      rw [← Option.toList_some, ← third, ← take_add_one]
      exact take_prefix _ _
    have length : (ids.take k).length = k := length_take_of_le (lt_length third).le
    rw [← getElem?_take_of_lt (show i < k by omega)] at first
    rw [← getElem?_take_of_lt lt₂] at second
    obtain ⟨m, again, kept⟩ := (held _ id here).1 (mem_lastFifty.2 ⟨j, second, by omega⟩)
    have bound := lt_length again
    -- the first of the three leaves the queue at call `i + 50`, so `m` comes after it
    have after : i + 50 < m := by
      by_contra before
      refine kept (i + 50) (by omega) (by omega) (by omega) ?_
      rwa [Nat.add_sub_cancel]
    rw [length] at bound
    rw [getElem?_take_of_lt bound] at again
    rw [getElem?_take_of_lt (by omega)] at first second
    have := ih m bound (by omega) again (by omega)
    omega

/-! ## Runs -/

namespace ClientState

def fresh (streamId : Option ℕ) : ClientState T S := { outgoingStreamId := streamId }

def Sends (env : Env P T S B W H J) (client : ClientState T S) (message : Message T) : Prop :=
  (client.publish env message).message.publish = client.message.publish ++ [message]

structure Noted (ids : List (MessageId S)) (cache : RecentlyPublishCache S) : Prop where
  queue : cache.queue = lastFifty ids
  map : ∀ id, cache.map.contains id = true ↔ Held ids id

variable {client : ClientState T S} {message : Message T}

theorem publish_none (h : computeMessageId env message = none) :
    (client.publish env message).cache = client.cache := by
  rw [publish, h]

theorem sends_iff {id : MessageId S} (h : computeMessageId env message = some id) :
    client.Sends env message ↔ ¬client.cache.map.contains id = true := by
  simp only [Sends, publish, h]
  split
  · split <;> split <;> simp_all
  · next eq => simp at eq

theorem lastFifty_append (ids : List I) (new : I) : lastFifty (ids ++ [new]) =
    if 50 ≤ ids.length then (lastFifty ids ++ [new]).tail else lastFifty ids ++ [new] := by
  have split : lastFifty ids ++ [new] = (ids ++ [new]).drop (ids.length - 50) := by
    rw [lastFifty, drop_append_of_le_length (by omega)]
  rw [split, tail_drop, lastFifty, length_append, length_singleton]
  split_ifs with full
  · rw [Nat.sub_add_comm full]
  · rw [show ids.length + 1 - 50 = ids.length - 50 by omega]

theorem length_lastFifty (ids : List I) : (lastFifty ids).length = min ids.length 50 := by
  rw [lastFifty, length_drop]
  omega

theorem Noted.publish {ids : List (MessageId S)} (noted : Noted ids client.cache)
    {new : MessageId S} (h : computeMessageId env message = some new) :
    Noted (ids ++ [new]) (client.publish env message).cache := by
  have inserted : ∀ id, (client.cache.map.insert new ()).contains id = true ↔ id = new ∨ Held ids id := by
    intro id
    rw [← noted.map, OrdMap.contains, OrdMap.contains, get_insert]
    split <;> simp_all
  have front : (ids ++ [new])[ids.length - 50]? = (lastFifty ids ++ [new]).head? := by
    rw [head?_eq_getElem?, lastFifty, ← drop_append_of_le_length (by omega), getElem?_drop, Nat.add_zero]
  have length : (client.cache.queue ++ [new]).length = min ids.length 50 + 1 := by
    rw [noted.queue, length_append, length_lastFifty, length_singleton]
  simp only [ClientState.publish, h]
  split
  · next first rest eq =>
    rw [eq] at length
    rw [noted.queue] at eq
    have next : lastFifty (ids ++ [new]) = if 50 ≤ ids.length then rest else first :: rest := by
      rw [lastFifty_append, eq, tail_cons]
    split
    · next full =>
      have full : 50 ≤ ids.length := by omega
      constructor
      · rw [next, if_pos full]
      · intro id
        rw [held_append, ← inserted, front, eq, head?_cons, OrdMap.contains, get_remove]
        split
        · next eq => simp [eq, full]
        · next ne => simp [OrdMap.contains, full, Ne.symm ne]
    · next room =>
      have room : ¬50 ≤ ids.length := by omega
      constructor
      · rw [next, if_neg room]
      · intro id
        rw [held_append, ← inserted]
        simp [room]
  · next eq => simp at eq

theorem noted_foldl (streamId : Option ℕ) (messages : List (Message T)) :
    Noted (messages.filterMap (computeMessageId env))
      (messages.foldl (publish env) (fresh streamId)).cache := by
  induction messages using reverseRecOn with
  | nil =>
    refine ⟨rfl, fun id => iff_of_false Bool.false_ne_true ?_⟩
    rintro ⟨m, here, -⟩
    cases here
  | append_singleton messages message ih =>
    rw [foldl_append, foldl_cons, foldl_nil, filterMap_append]
    cases h : computeMessageId env message with
    | none =>
      rw [publish_none h]
      simpa [h] using ih
    | some id =>
      rw [filterMap_cons_some h]
      exact ih.publish h

omit [LinearOrder S] in
theorem forall_calls_iff (messages : List (Message T)) (good : List (MessageId S) → MessageId S → Prop) :
    (∀ before message id, before ++ [message] <+: messages → computeMessageId env message = some id →
      good (before.filterMap (computeMessageId env)) id) ↔
    ∀ ids id, ids ++ [id] <+: messages.filterMap (computeMessageId env) → good ids id := by
  constructor
  · rintro all ids id ⟨after, eq⟩
    rw [append_assoc, eq_comm, filterMap_eq_append_iff] at eq
    obtain ⟨before, rest, rfl, rfl, eq⟩ := eq
    obtain ⟨skipped, message, rest, rfl, none, is, -⟩ := filterMap_eq_cons_iff.1 eq
    have := all (before ++ skipped) message id ⟨rest, by simp⟩ is
    rwa [filterMap_append, filterMap_eq_nil_iff.2 none, append_nil] at this
  · rintro all before message id ⟨after, rfl⟩ is
    exact all _ id ⟨after.filterMap (computeMessageId env), by simp [is]⟩

/-- **The filter of recently published messages**: on a new client, a message that has an id is
    queued exactly when the id is not among those of the fifty calls before, if and only if no
    id comes a third time within fifty calls of the second, but not of the first. -/
theorem publish_fresh_iff (env : Env P T S B W H J) (streamId : Option ℕ) (messages : List (Message T)) :
    (∀ before message id, before ++ [message] <+: messages → computeMessageId env message = some id →
      (Sends env (before.foldl (publish env) (fresh streamId)) message ↔
        id ∉ lastFifty (before.filterMap (computeMessageId env)))) ↔
    NoLateThird (messages.filterMap (computeMessageId env)) := by
  rw [noLateThird_iff, ← forall_calls_iff messages fun ids id => id ∈ lastFifty ids ↔ Held ids id]
  refine forall₅_congr fun before message id here is => ?_
  rw [sends_iff is, (noted_foldl streamId before).map, not_iff_not]
  exact iff_comm

def numbered (n : ℕ) : Message ℕ :=
  ⟨none, none, some [0, 0, 0, 0, 0, 0, 0, UInt8.ofNat n], 0, none, none⟩

def twiceAndOthers : List (Message ℕ) := numbered 0 :: numbered 0 :: (range 49).map fun n => numbered (n + 1)

/-- The message is then sent once more, though its second call is the fiftieth before. -/
theorem publish_forgets :
    let idOf := computeMessageId State.sampleEnv
    idOf (numbered 0) ∈ (lastFifty (twiceAndOthers.filterMap idOf)).map some ∧
      Sends State.sampleEnv (twiceAndOthers.foldl (publish State.sampleEnv) (fresh none)) (numbered 0) := by
  unfold Sends
  decide +kernel

end ClientState

end MinaRust.Pubsub
