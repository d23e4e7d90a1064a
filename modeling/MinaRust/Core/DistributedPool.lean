/-
  The distributed pool (`core/src/distributed_pool.rs`) and its propagation to a peer
  (`p2p/src/channels/snark`).

  Entries are stored under increasing indices; one that changes moves to a new index.  A
  round of sending collects the messages from the peer's cursor, `next_send_index`, on and
  moves the cursor behind the last index it has looked at.
-/
import MinaRust.Lib.Checked
import MinaRust.Lib.OrdMap

namespace MinaRust

open List OrdMap Nat

structure DistributedPool (State Key : Type) [LinearOrder Key] where
  counter : ℕ
  list : OrdMap ℕ State
  byKey : OrdMap Key ℕ

namespace DistributedPool

variable {State Key : Type} [LinearOrder Key]

def saturatingSucc (n : ℕ) : ℕ := min (n + 1) (2 ^ 64 - 1)

theorem saturatingSucc_of_lt {n : ℕ} (h : n + 1 < 2 ^ 64) : saturatingSucc n = n + 1 :=
  min_eq_left (le_sub_one_of_lt h)

def empty : DistributedPool State Key := ⟨0, .empty, .empty⟩

def isEmpty (p : DistributedPool State Key) : Bool := p.list.entries.isEmpty

variable (p : DistributedPool State Key)

def len : ℕ := p.list.entries.length

def contains (p : DistributedPool State Key) (key : Key) : Bool :=
  (p.byKey.get key).any fun i => p.list.contains i

def get (p : DistributedPool State Key) (key : Key) : Option State :=
  (p.byKey.get key).bind p.list.get

def lastIndex : ℕ := p.list.entries.getLast?.elim 0 Prod.fst

section
variable (asRef : State → Key)

def insert (p : DistributedPool State Key) (state : State) : DistributedPool State Key where
  counter := saturatingSucc p.counter
  list := p.list.insert p.counter state
  byKey := p.byKey.insert (asRef state) p.counter

def remove (p : DistributedPool State Key) (key : Key) : Option State × DistributedPool State Key :=
  match p.byKey.get key with
  | none => (none, p)
  | some index =>
    (p.list.get index, { p with list := p.list.remove index, byKey := p.byKey.remove key })

def update {R : Type} (p : DistributedPool State Key) (key : Key) (f : State → R × State) :
    Option R × DistributedPool State Key :=
  match p.remove key with
  | (none, p) => (none, p)
  | (some state, p) => (some (f state).1, p.insert asRef (f state).2)

end

def silentUpdate {R : Type} (key : Key) (f : State → R × State) : Option R × DistributedPool State Key :=
  match p.byKey.get key with
  | none => (none, p)
  | some index =>
    ((p.list.get index).map fun state => (f state).1,
      { p with list := p.list.modify index fun state => (f state).2 })

section
variable {σ : Type}

variable (f : σ → Key → State → σ × State × Bool)

/-- The closure of `retain_and_update`. `f` is itself a closure, with captured variables of type
    `σ`. -/
def retainStep (acc : σ × DistributedPool State Key) (e : Key × ℕ) : σ × DistributedPool State Key :=
  match acc.2.list.get e.2 with
  | none => (acc.1, { acc.2 with byKey := acc.2.byKey.remove e.1 })
  | some v =>
    let (c, v, stays) := f acc.1 e.1 v
    if stays then (c, { acc.2 with list := acc.2.list.modify e.2 fun _ => v })
    else (c, { acc.2 with list := acc.2.list.remove e.2, byKey := acc.2.byKey.remove e.1 })

def retainAndUpdate (c : σ) (p : DistributedPool State Key) : σ × DistributedPool State Key :=
  p.byKey.entries.foldl (retainStep f) (c, p)

end

/-! ## A round of sending -/

section
variable {T : Type} (limit : ℕ) (extract : State → Option T)

/-- The body of the `try_fold`; an error ends the loop at the limit. -/
def sendStep (acc : List T × Option ℕ) (e : ℕ × State) : Except (List T × ℕ × ℕ) (List T × Option ℕ) :=
  match extract e.2 with
  | none => .ok acc
  | some data =>
    let first := acc.2.getD e.1
    let list := acc.1 ++ [data]
    if limit ≤ list.length then .error (list, first, e.1) else .ok (list, some first)

/-- At most `limit` messages, with the index of the first and of the last entry looked at. -/
def nextMessagesToSend (p : DistributedPool State Key) (index : ℕ) : List T × ℕ × ℕ :=
  if limit = 0 then ([], index - 1, index - 1)
  else
    match (p.list.rangeFrom index).foldlM (sendStep limit extract) ([], none) with
    | .ok (list, first) => (list, first.getD index, p.lastIndex)
    | .error v => v

def firstIndex (es : List (ℕ × State)) : Option ℕ :=
  (es.find? fun e => (extract e.2).isSome).map Prod.fst

variable {limit extract}

variable {es : List (ℕ × State)}

theorem mem_of_firstIndex {i : ℕ} (h : firstIndex extract es = some i) : ∃ s, (i, s) ∈ es := by
  obtain ⟨⟨i, s⟩, found, rfl⟩ := Option.map_eq_some_iff.1 h
  exact ⟨s, List.mem_of_find?_eq_some found⟩

variable {e : ℕ × State}

theorem firstIndex_cons_of_none (h : extract e.2 = none) :
    firstIndex extract (e :: es) = firstIndex extract es := by
  simp [firstIndex, h]

theorem firstIndex_cons_of_some {data : T} (h : extract e.2 = some data) :
    firstIndex extract (e :: es) = some e.1 := by
  simp [firstIndex, h]

theorem firstIndex_eq_none (h : firstIndex extract es = none) : es.filterMap (fun e => extract e.2) = [] := by
  rw [firstIndex, Option.map_eq_none_iff, List.find?_eq_none] at h
  rw [filterMap_eq_nil_iff]
  intro e mem
  simpa using h e mem

/-- **The loop of a round** collects the messages of the entries up to the one that reaches the
    limit. -/
theorem sendLoop_spec : ∀ (es : List (ℕ × State)) (msgs : List T) (first : Option ℕ), msgs.length < limit →
    Ends (es.foldlM (sendStep limit extract) (msgs, first))
      (fun r => r.1 = msgs ++ es.filterMap (fun e => extract e.2) ∧ r.1.length < limit ∧
        r.2 = first.or (firstIndex extract es))
      (fun r => ∃ seen s rest, es = seen ++ (r.2.2, s) :: rest ∧
        r.1 = msgs ++ (seen ++ [(r.2.2, s)]).filterMap (fun e => extract e.2) ∧
        r.1.length = limit ∧ first.or (firstIndex extract (seen ++ [(r.2.2, s)])) = some r.2.1)
  | [], msgs, first, short => by
    refine Ends.ok ⟨by simp, by simpa using short, ?_⟩
    cases first <;> rfl
  | e :: es, msgs, first, short => by
    rw [foldlM_cons, sendStep]
    cases data : extract e.2 with
    | none =>
      -- the entry is passed over
      have rest := sendLoop_spec es msgs first short
      rw [ok_bind]
      generalize es.foldlM (sendStep limit extract) (msgs, first) = x at rest ⊢
      cases x with
      | ok r =>
        obtain ⟨list, len, index⟩ := rest
        refine ⟨?_, len, ?_⟩
        · simpa only [filterMap_cons, data] using list
        · rw [firstIndex_cons_of_none data]
          exact index
      | error r =>
        obtain ⟨seen, s, rest, split, list, len, index⟩ := rest
        refine ⟨e :: seen, s, rest, by rw [split]; rfl, ?_, len, ?_⟩
        · simpa only [cons_append, filterMap_cons, data] using list
        · rw [cons_append, firstIndex_cons_of_none data]
          exact index
    | some m =>
      dsimp only
      by_cases full : limit ≤ (msgs ++ [m]).length
      · rw [if_pos full]
        refine ⟨[], e.2, es, rfl, ?_, ?_, ?_⟩
        · simp [nil_append, data, filterMap_nil]
        · have len : (msgs ++ [m]).length = msgs.length + 1 := by simp
          dsimp only
          omega
        · rw [nil_append, firstIndex_cons_of_some data]
          cases first <;> rfl
      · have rest := sendLoop_spec es (msgs ++ [m]) (some (first.getD e.1)) (Nat.lt_of_not_le full)
        rw [if_neg full, ok_bind]
        generalize es.foldlM (sendStep limit extract) (msgs ++ [m], some (first.getD e.1)) = x at rest ⊢
        have start : ∀ o, (some (first.getD e.1)).or o = first.or (some e.1) := by
          intro o
          cases first <;> rfl
        cases x with
        | ok r =>
          obtain ⟨list, len, index⟩ := rest
          refine ⟨by simp only [list, filterMap_cons, data, append_assoc, singleton_append], len, ?_⟩
          rw [firstIndex_cons_of_some data, index, start]
        | error r =>
          obtain ⟨seen, s, rest, split, list, len, index⟩ := rest
          refine ⟨e :: seen, s, rest, by rw [split]; rfl, ?_, len, ?_⟩
          · simp [list, cons_append, filterMap_cons, data, append_assoc, nil_append]
          · rw [cons_append, firstIndex_cons_of_some data, ← index, start]

variable {p : DistributedPool State Key}

theorem le_lastIndex (mem : e ∈ p.list.entries) :
    e.1 ≤ p.lastIndex ∧ ∃ s, (p.lastIndex, s) ∈ p.list.entries := by
  cases last : p.list.entries.getLast? with
  | none =>
    rw [List.getLast?_eq_none_iff] at last
    simp [last] at mem
  | some l =>
    have eq : p.lastIndex = l.1 := by simp [lastIndex, last]
    rw [eq]
    exact ⟨le_of_getLast? last mem, l.2, mem_of_getLast? last⟩

/-- **One round** starts at the cursor and keeps to the limit; every entry from the cursor to
    the last index has its message in the list, and the last index is that of an entry. -/
theorem nextMessagesToSend_spec {index first last : ℕ} {msgs : List T} (pos : 0 < limit)
    (round : p.nextMessagesToSend limit extract index = (msgs, first, last)) :
    index ≤ first ∧ msgs.length ≤ limit ∧ (msgs ≠ [] → first ≤ last ∧ ∃ s, (last, s) ∈ p.list.entries) ∧
      ∀ i s m, (i, s) ∈ p.list.entries → index ≤ i → i ≤ last → extract s = some m → m ∈ msgs := by
  have loop : Ends ((p.list.rangeFrom index).foldlM (sendStep limit extract) ([], none)) _ _ :=
    sendLoop_spec (p.list.rangeFrom index) [] none pos
  rw [nextMessagesToSend, if_neg pos.ne'] at round
  generalize (p.list.rangeFrom index).foldlM (sendStep limit extract) ([], none) = x at loop round
  cases x with
  | ok r =>
    obtain ⟨list, found⟩ := r
    obtain ⟨all, len, start⟩ := loop
    rw [nil_append] at all
    dsimp only at all len start round
    obtain ⟨rfl, rfl, rfl⟩ := by simpa only [Prod.mk.injEq] using round
    refine ⟨?_, len.le, ?_, ?_⟩
    · cases found with
      | none => exact le_rfl
      | some i =>
        obtain ⟨s, mem⟩ := mem_of_firstIndex start.symm
        exact (mem_rangeFrom.1 mem).2
    · intro some
      cases found with
      | none => exact absurd (all.trans (firstIndex_eq_none start.symm)) some
      | some i =>
        obtain ⟨s, mem⟩ := mem_of_firstIndex start.symm
        exact le_lastIndex (mem_rangeFrom.1 mem).1
    · intro i s m mem le _ data
      rw [all, mem_filterMap]
      exact ⟨(i, s), mem_rangeFrom.2 ⟨mem, le⟩, data⟩
  | error r =>
    subst round
    obtain ⟨seen, s, rest, split, list, len, start⟩ := loop
    rw [nil_append] at list
    dsimp only at split list len start
    have inRange : ∀ e ∈ seen ++ [(last, s)], e ∈ p.list.rangeFrom index := by
      intro e mem
      rw [split]
      simp only [mem_append, mem_cons] at mem ⊢
      tauto
    have sorted := p.list.sorted_rangeFrom index
    rw [split, pairwise_append, pairwise_cons] at sorted
    obtain ⟨i, mem⟩ := mem_of_firstIndex start
    refine ⟨(mem_rangeFrom.1 (inRange _ mem)).2, len.le, fun _ => ⟨?_, s, ?_⟩, ?_⟩
    · -- the first message is that of an entry already seen or of the last one
      rcases mem_append.1 mem with before | eq
      · exact (sorted.2.2 _ before (last, s) mem_cons_self).le
      · cases mem_singleton.1 eq
        exact le_rfl
    · exact (mem_rangeFrom.1 (inRange _ (by simp))).1
    · intro j t m mem le upTo data
      have here : (j, t) ∈ seen ++ (last, s) :: rest := split ▸ mem_rangeFrom.2 ⟨mem, le⟩
      have seen : (j, t) ∈ seen ++ [(last, s)] := by
        simp only [mem_append, mem_cons] at here ⊢
        rcases here with here | here | here
        · exact .inl here
        · exact .inr (.inl here)
        · exact absurd (sorted.2.1.1 _ here) (not_lt.2 upTo)
      rw [list, mem_filterMap]
      exact ⟨(j, t), seen, data⟩

end

/-! ## Propagation to a peer -/

section
variable {T : Type}

/-- The channel to a ready peer: the cursor, and the messages sent so far. -/
structure Channel (T : Type) where
  nextSendIndex : ℕ
  sent : List T

/-- The enabling condition of `ResponseSend`, for a peer that has requested
    `requestedLimit` messages. -/
def Channel.responseSendEnabled (c : Channel T) (requestedLimit : ℕ) (msgs : List T) (first last : ℕ) : Bool :=
  !msgs.isEmpty && decide (first ≤ last) && !decide (first < c.nextSendIndex) &&
    decide (msgs.length ≤ requestedLimit)

/-- The reducer of `ResponseSend`; `last_index + 1` is a `u64`. -/
def Channel.responseSend (c : Channel T) (msgs : List T) (last : ℕ) : Channel T :=
  ⟨(last + 1) % 2 ^ 64, c.sent ++ msgs⟩

/-- The messages of a round in a `ResponseSend`, dropped when it is not enabled. -/
def sendRound (limit : ℕ) (extract : State → Option T) (p : DistributedPool State Key)
    (c : Channel T) : Channel T :=
  let (msgs, first, last) := p.nextMessagesToSend limit extract c.nextSendIndex
  if c.responseSendEnabled limit msgs first last then c.responseSend msgs last else c

/-- The steps of a run: the operations on the pool, and a round of sending. -/
inductive Op (State Key : Type) : Type 1 where
  | insert (state : State)
  | update (key : Key) (f : State → State)
  | silentUpdate (key : Key) (f : State → State)
  | remove (key : Key)
  | retainAndUpdate {σ : Type} (c : σ) (f : σ → Key → State → σ × State × Bool)
  | round (limit : ℕ)

def Op.advances : Op State Key → Bool
  | .insert _ | .update .. => true
  | _ => false

variable (asRef : State → Key) (extract : State → Option T)

def step (s : DistributedPool State Key × Channel T) : Op State Key → DistributedPool State Key × Channel T
  | .insert state => (s.1.insert asRef state, s.2)
  | .update key f => ((s.1.update asRef key fun state => ((), f state)).2, s.2)
  | .silentUpdate key f => ((s.1.silentUpdate key fun state => ((), f state)).2, s.2)
  | .remove key => ((s.1.remove key).2, s.2)
  | .retainAndUpdate c f => ((s.1.retainAndUpdate f c).2, s.2)
  | .round limit => (s.1, sendRound limit extract s.1 s.2)

def run (ops : List (Op State Key)) : DistributedPool State Key × Channel T :=
  ops.foldl (step asRef extract) (.empty, ⟨0, []⟩)

/-- The change from `s` to `s'` creates no message: a message of `s'` is that of `s`. -/
def Silent (s s' : State) : Prop := ∀ m, extract s' = some m → extract s = some m

/-- A step that changes states in place creates no message, and a round has a limit. -/
def Permitted (p : DistributedPool State Key) : Op State Key → Prop
  | .silentUpdate key f => ∀ s, p.get key = some s → Silent extract s (f s)
  | .retainAndUpdate _ f =>
    ∀ c key s, (f c key s).2.2 = true → Silent extract s (f c key s).2.1
  | .round limit => 0 < limit
  | .insert _ | .update .. | .remove _ => True

def AllPermitted : DistributedPool State Key × Channel T → List (Op State Key) → Prop
  | _, [] => True
  | s, op :: ops => Permitted extract s.1 op ∧ AllPermitted (step asRef extract s op) ops

/-- Every entry is a new one, or it was there before under the same index and has got no new
    message. -/
def Evolves (p p' : DistributedPool State Key) : Prop :=
  p.counter ≤ p'.counter ∧ ∀ i s', (i, s') ∈ p'.list.entries →
    p.counter ≤ i ∧ i < p'.counter ∨ ∃ s, (i, s) ∈ p.list.entries ∧ Silent extract s s'

variable {asRef extract} {p p' p'' : DistributedPool State Key}

theorem Evolves.refl (p : DistributedPool State Key) : Evolves extract p p :=
  ⟨le_rfl, fun _ s mem => .inr ⟨s, mem, fun _ data => data⟩⟩

theorem Evolves.trans (h : Evolves extract p p') (h' : Evolves extract p' p'') : Evolves extract p p'' := by
  refine ⟨h.1.trans h'.1, fun i s'' mem => ?_⟩
  rcases h'.2 i s'' mem with ⟨from', lt⟩ | ⟨s', mem', silent'⟩
  · exact .inl ⟨h.1.trans from', lt⟩
  · rcases h.2 i s' mem' with ⟨ge, lt⟩ | ⟨s, mem, silent⟩
    · exact .inl ⟨ge, lt.trans_le h'.1⟩
    · exact .inr ⟨s, mem, fun m data => silent m (silent' m data)⟩

theorem Evolves.of_subset (count : p'.counter = p.counter)
    (sub : ∀ e ∈ p'.list.entries, e ∈ p.list.entries) : Evolves extract p p' :=
  ⟨count.ge, fun _ s mem => .inr ⟨s, sub _ mem, fun _ data => data⟩⟩

theorem Evolves.of_modify (index : ℕ) (f : State → State) (count : p'.counter = p.counter)
    (list : p'.list = p.list.modify index f)
    (silent : ∀ s, (index, s) ∈ p.list.entries → Silent extract s (f s)) : Evolves extract p p' := by
  refine ⟨count.ge, fun i s' mem => .inr ?_⟩
  rw [list] at mem
  obtain ⟨s, old, rfl⟩ := mem_modify.1 mem
  refine ⟨s, old, ?_⟩
  split
  · next eq => exact silent s (eq ▸ old)
  · exact fun _ data => data

theorem evolves_insert (state : State) (few : p.counter + 1 < 2 ^ 64) :
    Evolves extract p (p.insert asRef state) := by
  have count : (p.insert asRef state).counter = p.counter + 1 := saturatingSucc_of_lt few
  refine ⟨by omega, fun i s mem => ?_⟩
  rcases mem_insert.1 mem with eq | ⟨-, mem⟩
  · cases eq
    exact .inl ⟨le_rfl, by omega⟩
  · exact .inr ⟨s, mem, fun _ data => data⟩

variable (key : Key)

theorem evolves_remove : Evolves extract p (p.remove key).2 := by
  unfold remove
  cases p.byKey.get key with
  | none => exact Evolves.refl p
  | some index => exact Evolves.of_subset rfl fun e mem => (mem_remove.1 mem).1

theorem remove_counter : (p.remove key).2.counter = p.counter := by
  unfold remove
  cases p.byKey.get key <;> rfl

theorem evolves_update {R : Type} (f : State → R × State) (few : p.counter + 1 < 2 ^ 64) :
    Evolves extract p (p.update asRef key f).2 := by
  have removed : Evolves extract p (p.remove key).2 := evolves_remove key
  have count : (p.remove key).2.counter = p.counter := remove_counter key
  unfold update
  generalize p.remove key = r at removed count
  obtain ⟨_ | state, p'⟩ := r
  · exact removed
  · exact removed.trans (evolves_insert _ (by rw [count]; exact few))

theorem evolves_silentUpdate {R : Type} (f : State → R × State)
    (silent : ∀ s, p.get key = some s → Silent extract s (f s).2) :
    Evolves extract p (p.silentUpdate key f).2 := by
  unfold silentUpdate
  cases found : p.byKey.get key with
  | none => exact Evolves.refl p
  | some index =>
    refine Evolves.of_modify index (fun state => (f state).2) rfl rfl fun s mem => silent s ?_
    rw [get, found]
    exact get_eq_some.2 mem

theorem evolves_retainStep {σ : Type} {f : σ → Key → State → σ × State × Bool}
    (silent : ∀ c key s, (f c key s).2.2 = true → Silent extract s (f c key s).2.1)
    (acc : σ × DistributedPool State Key) (e : Key × ℕ) : Evolves extract acc.2 (retainStep f acc e).2 := by
  unfold retainStep
  cases found : acc.2.list.get e.2 with
  | none => exact Evolves.of_subset rfl fun _ mem => mem
  | some v =>
    dsimp only
    by_cases stays : (f acc.1 e.1 v).2.2 = true
    · rw [if_pos stays]
      refine Evolves.of_modify e.2 (fun _ => (f acc.1 e.1 v).2.1) rfl rfl fun s mem => ?_
      -- the entry under the index is the one the closure was called on
      have same : s = v := acc.2.list.eq_of_mem mem (get_eq_some.1 found)
      exact same ▸ silent acc.1 e.1 v stays
    · rw [if_neg stays]
      exact Evolves.of_subset rfl fun e mem => (mem_remove.1 mem).1

theorem evolves_retainLoop {σ : Type} {f : σ → Key → State → σ × State × Bool}
    (silent : ∀ c key s, (f c key s).2.2 = true → Silent extract s (f c key s).2.1) :
    ∀ (es : List (Key × ℕ)) (acc : σ × DistributedPool State Key),
      Evolves extract acc.2 (es.foldl (retainStep f) acc).2
  | [], acc => Evolves.refl acc.2
  | e :: es, acc => (evolves_retainStep silent acc e).trans (evolves_retainLoop silent es _)

/-- Every entry below the cursor has had its message sent. -/
structure Delivered (extract : State → Option T) (p : DistributedPool State Key) (c : Channel T) :
    Prop where
  below : ∀ e ∈ p.list.entries, e.1 < p.counter
  cursor : c.nextSendIndex ≤ p.counter
  sent : ∀ i s m, (i, s) ∈ p.list.entries → i < c.nextSendIndex → extract s = some m → m ∈ c.sent

variable {c : Channel T}

theorem Delivered.evolves (d : Delivered extract p c) (h : Evolves extract p p') : Delivered extract p' c := by
  refine ⟨fun e mem => ?_, d.cursor.trans h.1, fun i s' m mem lt data => ?_⟩
  · rcases h.2 e.1 e.2 mem with new | ⟨s, old, -⟩
    · exact new.2
    · exact (d.below _ old).trans_le h.1
  · rcases h.2 i s' mem with new | ⟨s, old, silent⟩
    · exact absurd (lt.trans_le d.cursor) (not_lt.2 new.1)
    · exact d.sent i s m old lt (silent m data)

/-- **No round is rejected**: it starts at the cursor or later, and a round with a
    message is enabled. -/
theorem round_enabled {limit first last : ℕ} {msgs : List T} (pos : 0 < limit)
    (round : p.nextMessagesToSend limit extract c.nextSendIndex = (msgs, first, last)) :
    c.nextSendIndex ≤ first ∧ (c.responseSendEnabled limit msgs first last = true ↔ msgs ≠ []) := by
  obtain ⟨start, len, ends, -⟩ := nextMessagesToSend_spec pos round
  refine ⟨start, ?_⟩
  have noRewind : ¬ first < c.nextSendIndex := not_lt.2 start
  simp only [Channel.responseSendEnabled, Bool.and_eq_true, Bool.not_eq_true', isEmpty_eq_false_iff,
    decide_eq_true_eq, decide_eq_false_iff_not]
  exact ⟨fun h => h.1.1.1, fun some => ⟨⟨⟨some, (ends some).1⟩, noRewind⟩, len⟩⟩

theorem Delivered.round (d : Delivered extract p c) {limit : ℕ} (pos : 0 < limit)
    (few : p.counter < 2 ^ 64) : Delivered extract p (sendRound limit extract p c) := by
  unfold sendRound
  cases round : p.nextMessagesToSend limit extract c.nextSendIndex with
  | mk msgs rest =>
  obtain ⟨first, last⟩ := rest
  dsimp only
  split
  · next enabled =>
    obtain ⟨-, -, ends, all⟩ := nextMessagesToSend_spec pos round
    obtain ⟨-, s, mem⟩ := ends ((round_enabled pos round).2.1 enabled)
    have lt : last < p.counter := d.below _ mem
    have next : (c.responseSend msgs last).nextSendIndex = last + 1 :=
      mod_eq_of_lt (lt_of_le_of_lt lt few)
    refine ⟨d.below, by omega, fun i s m mem below data => ?_⟩
    rw [Channel.responseSend, mem_append]
    -- what was below the old cursor was sent before, the rest in this round
    by_cases old : i < c.nextSendIndex
    · exact .inl (d.sent i s m mem old data)
    · exact .inr (all i s m mem (Nat.le_of_not_lt old) (by omega) data)
  · exact d

/-- **One permitted step** leaves every entry below the cursor delivered. -/
theorem Delivered.step (d : Delivered extract p c) {op : Op State Key}
    (permitted : Permitted extract p op) (few : p.counter + (if op.advances then 1 else 0) < 2 ^ 64) :
    Delivered extract (step asRef extract (p, c) op).1 (step asRef extract (p, c) op).2 := by
  cases op with
  | insert state => exact d.evolves (evolves_insert state few)
  | update key f => exact d.evolves (evolves_update key _ few)
  | silentUpdate key f => exact d.evolves (evolves_silentUpdate key _ permitted)
  | remove key => exact d.evolves (evolves_remove key)
  | retainAndUpdate a f => exact d.evolves (evolves_retainLoop permitted p.byKey.entries (a, p))
  | round limit => exact d.round permitted few

theorem retainStep_counter {σ : Type} (f : σ → Key → State → σ × State × Bool)
    (acc : σ × DistributedPool State Key) (e : Key × ℕ) : (retainStep f acc e).2.counter = acc.2.counter := by
  unfold retainStep
  cases acc.2.list.get e.2 with
  | none => rfl
  | some v =>
    dsimp only
    split <;> rfl

theorem retainLoop_counter {σ : Type} (f : σ → Key → State → σ × State × Bool) :
    ∀ (es : List (Key × ℕ)) (acc : σ × DistributedPool State Key),
      (es.foldl (retainStep f) acc).2.counter = acc.2.counter
  | [], _ => rfl
  | e :: es, acc => (retainLoop_counter f es _).trans (retainStep_counter f acc e)

theorem update_counter_le {R : Type} (f : State → R × State) :
    (p.update asRef key f).2.counter ≤ p.counter + 1 := by
  have count : (p.remove key).2.counter = p.counter := remove_counter key
  unfold update
  generalize p.remove key = r at count
  obtain ⟨_ | state, p'⟩ := r
  · exact count.le.trans (le_succ _)
  · exact (min_le_left _ _).trans (by dsimp only at count; omega)

theorem step_counter_le (op : Op State Key) :
    (step asRef extract (p, c) op).1.counter ≤ p.counter + if op.advances then 1 else 0 := by
  cases op with
  | insert state => exact min_le_left _ _
  | update key f => exact update_counter_le key _
  | silentUpdate key f =>
    unfold step silentUpdate
    dsimp only
    cases p.byKey.get key <;> rfl
  | remove key => exact (remove_counter key).le
  | retainAndUpdate a f => exact (retainLoop_counter f _ _).le
  | round limit => exact le_rfl

theorem foldl_delivered : ∀ (ops : List (Op State Key)) {s : DistributedPool State Key × Channel T},
    Delivered extract s.1 s.2 → AllPermitted asRef extract s ops →
    s.1.counter + ops.countP Op.advances < 2 ^ 64 →
    Delivered extract (ops.foldl (step asRef extract) s).1 (ops.foldl (step asRef extract) s).2
  | [], _, d, _, _ => d
  | op :: ops, (p, c), d, permitted, few => by
    have total : p.counter + (ops.countP Op.advances + if op.advances then 1 else 0) < 2 ^ 64 :=
      countP_cons ▸ few
    have count : (step asRef extract (p, c) op).1.counter ≤ _ := step_counter_le op
    have now : p.counter + (if op.advances then 1 else 0) < 2 ^ 64 := by omega
    exact foldl_delivered ops (Delivered.step d permitted.1 now) permitted.2 (by omega)

theorem Delivered.start : Delivered extract (empty : DistributedPool State Key) ⟨0, []⟩ :=
  ⟨by simp [empty, OrdMap.empty], le_rfl, fun i s m _ lt => absurd lt (not_lt_zero i)⟩

/-- **No entry is missed.**  In every run of permitted steps with fewer than `2 ^ 64`
    insertions and updates, every entry below the cursor has had its message sent;
    the next round starts at the cursor or later, and it is enabled when it has a
    message. -/
theorem run_delivered (ops : List (Op State Key)) (permitted : AllPermitted asRef extract (.empty, ⟨0, []⟩) ops)
    (few : ops.countP Op.advances < 2 ^ 64) {p : DistributedPool State Key} {c : Channel T}
    (reached : run asRef extract ops = (p, c)) :
    (∀ i s m, (i, s) ∈ p.list.entries → i < c.nextSendIndex → extract s = some m → m ∈ c.sent) ∧
      ∀ limit msgs first last, 0 < limit →
        p.nextMessagesToSend limit extract c.nextSendIndex = (msgs, first, last) →
        c.nextSendIndex ≤ first ∧ (c.responseSendEnabled limit msgs first last = true ↔ msgs ≠ []) := by
  have d := foldl_delivered ops Delivered.start permitted (by simpa [empty] using few)
  rw [← run, reached] at d
  exact ⟨d.sent, fun limit msgs first last pos round => round_enabled pos round⟩

/-- The states of the two runs below: a key and its message, if it has one. -/
def keyed (s : ℕ × Option ℕ) : ℕ := s.1

/-- An entry gets its message by `update`, after the cursor has passed it: it moves
    behind the cursor and is sent in the second round. -/
theorem run_delivered_moved : (run keyed Prod.snd [.insert (1, none), .insert (2, some 20), .round 5,
      .update 1 (fun s => (s.1, some 10)), .round 5]).2.sent = [20, 10] ∧
    ∀ i s m, (i, s) ∈ (run keyed Prod.snd [.insert (1, none), .insert (2, some 20), .round 5,
        .update 1 (fun s => (s.1, some 10)), .round 5]).1.list.entries →
      i < 3 → s.2 = some m → m ∈ [20, 10] :=
  ⟨rfl, (run_delivered [.insert (1, none), .insert (2, some 20), .round 5,
    .update 1 (fun s => (s.1, some 10)), .round 5]
    ⟨trivial, trivial, succ_pos 4, trivial, succ_pos 4, trivial⟩ (by decide) rfl).1⟩

/-- `retain_and_update` with a function that creates a message: the entry keeps its
    index `0`, the cursor is at `2`, and the message `10` was never sent. -/
theorem retainAndUpdate_missed :
    let s := run keyed Prod.snd [.insert (1, none), .insert (2, some 20), .round 5,
      .retainAndUpdate () fun _ _ s => ((), (s.1, some (10 * s.1)), true)]
    (0, (1, some 10)) ∈ s.1.list.entries ∧ s.2.nextSendIndex = 2 ∧ s.2.sent = [20] ∧
      (s.1.nextMessagesToSend 5 Prod.snd s.2.nextSendIndex).1 = [] := by
  decide

end

end DistributedPool

end MinaRust
