/-
  Pending requests and their ids (`core/src/requests`).

  A request is stored in a slot of a slab with the number of the `add` that stored it.  Its
  id is the slot and that number.  The counter is a 64-bit `usize` and wraps.
-/
import MinaRust.Lib.Checked
import MinaRust.Lib.Slab

namespace MinaRust.Requests

open List Function

inductive Panic where
  /-- `assert_eq!(id.locator(), new_locator, ..)` in `update` -/
  | locatorChanged
  deriving DecidableEq, Repr

@[ext]
structure RequestId where
  locator : ℕ
  counter : ℕ
  deriving DecidableEq, Repr

def RequestId.cmp (a b : RequestId) : Ordering :=
  (compare a.counter b.counter).then (compare a.locator b.locator)

structure PendingRequest (Request : Type) where
  counter : ℕ
  request : Request
  deriving DecidableEq, Repr

structure PendingRequests (Request : Type) where
  list : Slab (PendingRequest Request)
  counter : ℕ
  lastAddedReqId : RequestId

variable {Request : Type}

def wrappingSucc (n : ℕ) : ℕ := (n + 1) % 2 ^ 64

namespace PendingRequests

def new : PendingRequests Request := ⟨.new, 0, ⟨0, 0⟩⟩

def nextReqId (s : PendingRequests Request) : RequestId := ⟨s.list.vacantKey, wrappingSucc s.counter⟩

def get (s : PendingRequests Request) (id : RequestId) : Option Request :=
  ((s.list.get id.locator).filter fun req => req.counter = id.counter).map PendingRequest.request

def contains (s : PendingRequests Request) (id : RequestId) : Bool := (s.get id).isSome

/-- `get_mut`: the request, and the store after another one is written in its place. -/
def getMut (s : PendingRequests Request) (id : RequestId) :
    Option (Request × (Request → PendingRequests Request)) :=
  ((s.list.get id.locator).filter fun req => req.counter = id.counter).map fun req =>
    (req.request, fun request =>
      -- freeing the slot and filling it again writes to the slot
      { s with list := (s.list.tryRemove id.locator).2.insert { req with request := request } })

def add (s : PendingRequests Request) (request : Request) : RequestId × PendingRequests Request :=
  let counter := wrappingSucc s.counter
  let reqId : RequestId := ⟨s.list.vacantKey, counter⟩
  (reqId, ⟨s.list.insert ⟨counter, request⟩, counter, reqId⟩)

def removePending (s : PendingRequests Request) (id : RequestId) :
    Option (PendingRequest Request) × PendingRequests Request :=
  match s.get id with
  | none => (none, s)
  | some _ =>
    let (removed, list) := s.list.tryRemove id.locator
    (removed, { s with list := list })

def remove (s : PendingRequests Request) (id : RequestId) : Option Request × PendingRequests Request :=
  let (removed, s) := s.removePending id
  (removed.map PendingRequest.request, s)

def update (s : PendingRequests Request) (id : RequestId) (f : Request → Request) :
    Except Panic (Bool × PendingRequests Request) :=
  match s.removePending id with
  | (some req, s) => do
    let newLocator := s.list.vacantKey
    let list := s.list.insert { req with request := f req.request }
    ensure .locatorChanged (id.locator = newLocator)
    return (true, { s with list := list })
  | (none, s) => return (false, s)

def iter (s : PendingRequests Request) : List (RequestId × Request) :=
  s.list.iter.map fun e => (⟨e.1, e.2.counter⟩, e.2.request)

/-! ## What an id resolves to -/

variable {s : PendingRequests Request}

variable {id : RequestId}

theorem get_eq_some {r : Request} : s.get id = some r ↔ s.list.get id.locator = some ⟨id.counter, r⟩ := by
  simp only [get, Option.map_eq_some_iff, Option.filter_eq_some_iff, decide_eq_true_eq]
  constructor
  · rintro ⟨⟨c, r⟩, ⟨stored, rfl⟩, rfl⟩
    exact stored
  · intro stored
    exact ⟨_, ⟨stored, rfl⟩, rfl⟩

theorem get_congr {s' : PendingRequests Request} (same : s'.list.get id.locator = s.list.get id.locator) :
    s'.get id = s.get id := by
  simp only [get, same]

variable (s)

theorem nextReqId_eq (r : Request) : s.nextReqId = (s.add r).1 := rfl

theorem get_add (r : Request) (id : RequestId) :
    (s.add r).2.get id = if id = s.nextReqId then some r else s.get id := by
  have slot := s.list.get_insert ⟨wrappingSucc s.counter, r⟩ id.locator
  by_cases same : id.locator = s.list.vacantKey
  · -- the slot was vacant: only the new id resolves to something
    rw [if_pos same] at slot
    have vacant : s.get id = none := by simp [get, same, Slab.get_vacantKey]
    have eq_iff : id = s.nextReqId ↔ wrappingSucc s.counter = id.counter := by
      simp [nextReqId, RequestId.ext_iff, same, eq_comm]
    rw [vacant, get]
    simp only [add, slot, Option.filter_some, eq_iff, decide_eq_true_eq]
    split <;> rfl
  · rw [if_neg same] at slot
    rw [if_neg fun eq => same (congrArg RequestId.locator eq)]
    exact get_congr slot

theorem removePending_fst (id : RequestId) :
    (s.removePending id).1 = (s.get id).map fun r => ⟨id.counter, r⟩ := by
  unfold removePending
  cases found : s.get id with
  | none => rfl
  | some r => exact (s.list.tryRemove_fst id.locator).trans (get_eq_some.1 found)

theorem get_removePending (id id' : RequestId) :
    (s.removePending id).2.get id' = if id' = id then none else s.get id' := by
  unfold removePending
  cases found : s.get id with
  | none =>
    by_cases eq : id' = id
    · rw [if_pos eq, eq]
      exact found
    · rw [if_neg eq]
  | some r =>
    have slot := s.list.get_tryRemove id.locator id'.locator
    by_cases same : id'.locator = id.locator
    · rw [if_pos same] at slot
      have gone : ({ s with list := (s.list.tryRemove id.locator).2 } : PendingRequests Request).get id'
          = none := by simp [get, slot]
      refine gone.trans ?_
      split
      · rfl
      · next ne =>
        -- another id of this slot has another counter
        have stored := get_eq_some.1 found
        have counters : ¬ id.counter = id'.counter := fun eq => ne (RequestId.ext same eq.symm)
        simp [get, same, stored, counters]
    · rw [if_neg same] at slot
      rw [if_neg fun eq => same (congrArg RequestId.locator eq)]
      exact get_congr slot

theorem remove_fst (id : RequestId) : (s.remove id).1 = s.get id := by
  simp [remove, removePending_fst, Option.map_map, comp_def]

theorem get_remove (id id' : RequestId) :
    (s.remove id).2.get id' = if id' = id then none else s.get id' :=
  get_removePending s id id'

theorem remove_counter (id : RequestId) :
    (s.removePending id).2.counter = s.counter := by
  unfold removePending
  split <;> rfl

variable {s}

theorem vacantKey_removePending {r : Request} (found : s.get id = some r) :
    (s.removePending id).2.list.vacantKey = id.locator := by
  unfold removePending
  rw [found]
  exact s.list.vacantKey_tryRemove (by simp [get_eq_some.1 found])

/-- **`update` succeeds, and changes what its id resolves to and nothing else.** -/
theorem update_spec (s : PendingRequests Request) (id : RequestId) (f : Request → Request) :
    ∃ s', s.update id f = .ok ((s.get id).isSome, s') ∧ s'.counter = s.counter ∧
      ∀ id', s'.get id' = if id' = id then (s.get id).map f else s.get id' := by
  have fst := s.removePending_fst id
  have rest := s.get_removePending id
  have count := s.remove_counter id
  have key : ∀ r, s.get id = some r → (s.removePending id).2.list.vacantKey = id.locator :=
    fun r found => vacantKey_removePending found
  unfold update
  generalize s.removePending id = removed at fst rest count key ⊢
  obtain ⟨o, t⟩ := removed
  cases found : s.get id with
  | none =>
    rw [found] at fst
    subst fst
    refine ⟨t, rfl, count, fun id' => ?_⟩
    rw [rest id']
    split <;> rfl
  | some r =>
    rw [found] at fst
    simp only [Option.map_some] at fst
    subst fst
    have slot : t.list.vacantKey = id.locator := key r found
    refine ⟨{ t with list := t.list.insert ⟨id.counter, f r⟩ }, ?_, count, fun id' => ?_⟩
    · simp only [ensure_of slot.symm, ok_bind]
      rfl
    · have stored := t.list.get_insert ⟨id.counter, f r⟩ id'.locator
      rw [slot] at stored
      by_cases same : id'.locator = id.locator
      · rw [if_pos same] at stored
        have eq_iff : id' = id ↔ id.counter = id'.counter := by
          simp [RequestId.ext_iff, same, eq_comm]
        by_cases eq : id' = id
        · subst eq
          simp [get, stored]
        · have counters := mt eq_iff.2 eq
          have other : s.get id' = none := by
            simp [get, same, get_eq_some.1 found, counters]
          rw [if_neg eq, other]
          simp [get, stored, counters]
      · rw [if_neg same] at stored
        have ne : id' ≠ id := fun eq => same (congrArg RequestId.locator eq)
        rw [if_neg ne]
        refine (get_congr stored).trans ?_
        rw [rest id', if_neg ne]

theorem getMut_fst (s : PendingRequests Request) (id : RequestId) : (s.getMut id).map Prod.fst = s.get id := by
  simp [getMut, get, Option.map_map, comp_def]

theorem mem_iter {r : Request} : (id, r) ∈ s.iter ↔ s.get id = some r := by
  simp only [iter, mem_map, Prod.exists, get_eq_some, Prod.mk.injEq]
  constructor
  · rintro ⟨k, ⟨c, r⟩, mem, rfl, rfl⟩
    exact Slab.mem_iter.1 mem
  · intro stored
    exact ⟨_, _, Slab.mem_iter.2 stored, rfl, rfl⟩

theorem nodup_iter (s : PendingRequests Request) : (s.iter.map Prod.fst).Nodup := by
  have locators := s.list.nodup_iter
  have map_eq : (s.iter.map Prod.fst).map RequestId.locator = s.list.iter.map Prod.fst := by
    simp [iter, map_map, comp_def]
  exact List.Nodup.of_map RequestId.locator (map_eq ▸ locators)

end PendingRequests

/-! ## Runs -/

inductive Op (Request : Type) where
  | add (request : Request)
  | update (id : RequestId) (f : Request → Request)
  | remove (id : RequestId)

/-- The record of a run: the ids that were handed out and removed, and the request
    that each id stands for. -/
structure Record (Request : Type) where
  issued : List RequestId
  removed : List RequestId
  live : RequestId → Option Request

def Record.empty : Record Request := ⟨[], [], fun _ => none⟩

/-- What an operation does to the record; `id` is the id that an `add` returned. -/
def Record.after (h : Record Request) (id : RequestId) : Op Request → Record Request
  | .add r => { h with issued := id :: h.issued, live := Function.update h.live id (some r) }
  | .update id f => { h with live := Function.update h.live id ((h.live id).map f) }
  | .remove id =>
    { h with
      removed := if (h.live id).isSome then id :: h.removed else h.removed
      live := Function.update h.live id none }

section
variable (h : Record Request) (id id' : RequestId)

@[simp] theorem Record.live_after_add (r : Request) :
    (h.after id (.add r)).live id' = if id' = id then some r else h.live id' :=
  update_apply ..

@[simp] theorem Record.live_after_update (f : Request → Request) :
    (h.after id (.update id f)).live id' = if id' = id then (h.live id).map f else h.live id' :=
  update_apply ..

@[simp] theorem Record.live_after_remove :
    (h.after id (.remove id)).live id' = if id' = id then none else h.live id' :=
  update_apply ..

end

def step (hs : Record Request × PendingRequests Request) :
    Op Request → Except Panic (Record Request × PendingRequests Request)
  | .add r =>
    let (id, s) := hs.2.add r
    .ok (hs.1.after id (.add r), s)
  | .update id f => do
    let (_, s) ← hs.2.update id f
    .ok (hs.1.after id (.update id f), s)
  | .remove id => .ok (hs.1.after id (.remove id), (hs.2.remove id).2)

def run (ops : List (Op Request)) : Except Panic (Record Request × PendingRequests Request) :=
  ops.foldlM step (.empty, .new)

def Op.isAdd : Op Request → Bool
  | .add _ => true
  | _ => false

structure Tracks (h : Record Request) (s : PendingRequests Request) : Prop where
  get : ∀ id, s.get id = h.live id
  counter : s.counter = h.issued.length
  counters : ∀ id ∈ h.issued, 1 ≤ id.counter ∧ id.counter ≤ s.counter
  nodup : h.issued.Nodup
  live : ∀ id, h.live id ≠ none → id ∈ h.issued
  removed : ∀ id ∈ h.removed, id ∈ h.issued ∧ h.live id = none

theorem Tracks.empty : Tracks (Record.empty : Record Request) .new where
  get _ := rfl
  counter := rfl
  counters := by simp [Record.empty]
  nodup := .nil
  live := by simp [Record.empty]
  removed := by simp [Record.empty]

section
variable {h : Record Request} {s : PendingRequests Request}

theorem Tracks.add (t : Tracks h s) (few : h.issued.length + 1 < 2 ^ 64) (r : Request) :
    Tracks (h.after (s.add r).1 (.add r)) (s.add r).2 := by
  have count : wrappingSucc s.counter = s.counter + 1 := by
    rw [wrappingSucc, t.counter]
    exact Nat.mod_eq_of_lt few
  have number : (s.add r).1.counter = s.counter + 1 := count
  have fresh : (s.add r).1 ∉ h.issued := by
    intro mem
    have le := (t.counters _ mem).2
    omega
  refine ⟨fun id => ?_, ?_, ?_, nodup_cons.2 ⟨fresh, t.nodup⟩, ?_, ?_⟩
  · rw [s.get_add, Record.live_after_add, t.get, s.nextReqId_eq r]
  · exact count.trans (by rw [t.counter]; rfl)
  · intro id mem
    have later : (s.add r).2.counter = s.counter + 1 := count
    rcases mem_cons.1 mem with rfl | mem
    · omega
    · have bounds := t.counters id mem
      omega
  · intro id some
    by_cases eq : id = (s.add r).1
    · exact mem_cons.2 (.inl eq)
    · rw [Record.live_after_add, if_neg eq] at some
      exact mem_cons_of_mem _ (t.live id some)
  · intro id mem
    have old := t.removed id mem
    have ne : id ≠ (s.add r).1 := fun eq => fresh (eq ▸ old.1)
    exact ⟨mem_cons_of_mem _ old.1, by rw [Record.live_after_add, if_neg ne, old.2]⟩

theorem Tracks.update (t : Tracks h s) (id : RequestId) (f : Request → Request) :
    ∃ s', s.update id f = .ok ((h.live id).isSome, s') ∧ Tracks (h.after id (.update id f)) s' := by
  obtain ⟨s', ok, count, get⟩ := s.update_spec id f
  refine ⟨s', t.get id ▸ ok, ⟨fun id' => ?_, count.trans t.counter, ?_, t.nodup, ?_, ?_⟩⟩
  · rw [get id', Record.live_after_update, t.get, t.get]
  · rw [count]
    exact t.counters
  · intro id' some
    rw [Record.live_after_update] at some
    by_cases eq : id' = id
    · subst eq
      refine t.live id' fun none => some ?_
      simp [none]
    · rw [if_neg eq] at some
      exact t.live id' some
  · intro id' mem
    obtain ⟨issued, none⟩ := t.removed id' mem
    refine ⟨issued, ?_⟩
    rw [Record.live_after_update]
    split
    · next eq => simp [← eq, none]
    · exact none

theorem Tracks.remove (t : Tracks h s) (id : RequestId) : Tracks (h.after id (.remove id)) (s.remove id).2 := by
  have count : (s.remove id).2.counter = s.counter := s.remove_counter id
  refine ⟨fun id' => ?_, count.trans t.counter, ?_, t.nodup, ?_, ?_⟩
  · rw [s.get_remove, Record.live_after_remove, t.get]
  · rw [count]
    exact t.counters
  · intro id' some
    rw [Record.live_after_remove] at some
    split at some
    · exact absurd rfl some
    · exact t.live id' some
  · intro id' mem
    have cases : id' = id ∧ h.live id ≠ none ∨ id' ∈ h.removed := by
      cases live : h.live id <;> simp_all [Record.after]
    rcases cases with ⟨rfl, some⟩ | old
    · exact ⟨t.live id' some, by simp⟩
    · obtain ⟨issued, none⟩ := t.removed id' old
      refine ⟨issued, ?_⟩
      rw [Record.live_after_remove]
      split
      · rfl
      · exact none

theorem Tracks.step (t : Tracks h s) (op : Op Request) (few : op.isAdd = true → h.issued.length + 1 < 2 ^ 64) :
    ∃ hs, Requests.step (h, s) op = .ok hs ∧ Tracks hs.1 hs.2 ∧
      hs.1.issued.length = h.issued.length + if op.isAdd then 1 else 0 := by
  cases op with
  | add r => exact ⟨_, rfl, t.add (few rfl) r, rfl⟩
  | update id f =>
    obtain ⟨s', ok, t'⟩ := t.update id f
    refine ⟨(h.after id (.update id f), s'), ?_, t', rfl⟩
    simp only [Requests.step, ok, ok_bind]
  | remove id => exact ⟨_, rfl, t.remove id, rfl⟩

theorem foldlM_tracks : ∀ (ops : List (Op Request)) {h : Record Request} {s : PendingRequests Request},
    Tracks h s → h.issued.length + ops.countP Op.isAdd < 2 ^ 64 →
    ∃ hs, ops.foldlM Requests.step (h, s) = .ok hs ∧ Tracks hs.1 hs.2
  | [], h, s, t, _ => ⟨(h, s), rfl, t⟩
  | op :: ops, h, s, t, few => by
    rw [countP_cons] at few
    obtain ⟨⟨h', s'⟩, ok, t', length⟩ := t.step op fun isAdd => by
      rw [if_pos isAdd] at few
      omega
    obtain ⟨hs, rest, done⟩ := foldlM_tracks ops t' (by dsimp only at length ⊢; omega)
    exact ⟨hs, by rw [foldlM_cons, ok, ok_bind, rest], done⟩

theorem run_tracks (ops : List (Op Request)) (few : ops.countP Op.isAdd < 2 ^ 64) :
    ∃ h s, run ops = .ok (h, s) ∧ Tracks h s := by
  obtain ⟨⟨h, s⟩, ok, t⟩ := foldlM_tracks ops Tracks.empty (by simpa [Record.empty] using few)
  exact ⟨h, s, ok, t⟩

end

end MinaRust.Requests
