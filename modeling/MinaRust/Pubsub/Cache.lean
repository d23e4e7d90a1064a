/-
  The cache of gossip messages: a map from ids to messages and the queue of the ids.

  Three actions change only one of the two parts: a message received under an id in the
  cache is queued twice, a rebroadcast one is not queued, and one that cannot be validated
  is taken out of the map only.
-/
import MinaRust.Lib.Checked
import MinaRust.Lib.Queued
import MinaRust.Pubsub.Framing

set_option linter.unusedSectionVars false

namespace MinaRust.Pubsub

open List OrdMap

variable {P T S B W H J : Type} [LinearOrder S]

/-! ## The cache -/

inductive BroadcastId (S H J : Type) where
  | blockHash (hash : H)
  | snark (jobId : J)
  | messageId (id : MessageId S)

namespace MessageCache

def capacity : ℕ := 100

def put (env : Env P T S B W H J) (cache : MessageCache P T S B W H J) (message : Message T) (content : Gossip B W)
    (peer : P) (time : ℕ) : Option (MessageId S) × MessageCache P T S B W H J :=
  match computeMessageId env message with
  | none => (none, cache)
  | some id =>
    let map := cache.map.insert id (.init message content peer time)
    match cache.queue ++ [id] with
    | first :: rest =>
      if capacity < (first :: rest).length then (some id, ⟨map.remove first, rest⟩)
      else (some id, ⟨map, first :: rest⟩)
    | [] => (some id, ⟨map, []⟩)

def getMessage (cache : MessageCache P T S B W H J) (id : MessageId S) : Option (Gossip B W) :=
  match cache.map.get id with
  | some (.init _ content _ _) => some content
  | _ => none

def hasBlockHash [DecidableEq H] (hash : H) : CacheMessage P T B W H J → Bool
  | .preValidatedBlockMessage blockHash .. => decide (blockHash = hash)
  | _ => false

def hasJobId [DecidableEq J] (jobId : J) : CacheMessage P T B W H J → Bool
  | .preValidatedSnark job .. => decide (job = jobId)
  | _ => false

def getMessageIdAndMessage [DecidableEq H] [DecidableEq J] (cache : MessageCache P T S B W H J) :
    BroadcastId S H J → Option (MessageId S × CacheMessage P T B W H J)
  | .blockHash hash => cache.map.entries.find? fun e => hasBlockHash hash e.2
  | .messageId id => (cache.map.get id).map fun message => (id, message)
  | .snark jobId => cache.map.entries.find? fun e => hasJobId jobId e.2

def removeMessage (cache : MessageCache P T S B W H J) (id : MessageId S) : MessageCache P T S B W H J :=
  ⟨cache.map.remove id, cache.queue.erase id⟩

/-! ## The map and the queue -/

/-- The queue has the keys of the map, each once, in the order of their arrival; so the first,
    which is evicted, is the oldest. -/
structure InStep (cache : MessageCache P T S B W H J) (arrived : List (MessageId S)) : Prop where
  queued : Queued cache.map cache.queue
  size : cache.map.entries.length ≤ capacity
  order : cache.queue.Sublist arrived

variable {cache : MessageCache P T S B W H J} {arrived : List (MessageId S)}

theorem InStep.of_queue (queued : Queued cache.map cache.queue) (size : cache.queue.length ≤ capacity)
    (order : cache.queue.Sublist arrived) : InStep cache arrived :=
  ⟨queued, queued.length_eq.trans_le size, order⟩

theorem InStep.length_le (inStep : InStep cache arrived) : cache.queue.length ≤ capacity :=
  inStep.queued.length_eq.symm.trans_le inStep.size

theorem InStep.congr (inStep : InStep cache arrived) {map : OrdMap (MessageId S) (CacheMessage P T B W H J)}
    (same : ∀ id, map.get id = none ↔ cache.map.get id = none) : InStep ⟨map, cache.queue⟩ arrived :=
  .of_queue (inStep.queued.congr same) inStep.length_le inStep.order

theorem InStep.insert (inStep : InStep cache arrived) {id : MessageId S} (known : cache.map.get id ≠ none)
    (message : CacheMessage P T B W H J) : InStep ⟨cache.map.insert id message, cache.queue⟩ arrived := by
  refine inStep.congr fun id' => ?_
  rw [get_insert]
  by_cases eq : id' = id <;> simp [eq, known]

theorem InStep.removeMessage (inStep : InStep cache arrived) (id : MessageId S) :
    InStep (cache.removeMessage id) arrived :=
  .of_queue (inStep.queued.erase id) (length_erase_le.trans inStep.length_le)
    (erase_sublist.trans inStep.order)

theorem InStep.removeMessages (inStep : InStep cache arrived)
    (ids : List (MessageId S)) : InStep (ids.foldl MessageCache.removeMessage cache) arrived := by
  induction ids generalizing cache with
  | nil => exact inStep
  | cons id ids ih => exact ih (inStep.removeMessage id)

/-- A message that is received: the first of the queue is evicted if the queue was full. -/
theorem inStep_put_iff (inStep : InStep cache arrived) {env : Env P T S B W H J} {message : Message T} {id : MessageId S}
    (found : computeMessageId env message = some id) (content : Gossip B W) (peer : P) (time : ℕ) :
    InStep (cache.put env message content peer time).2 (arrived ++ [id]) ↔ cache.map.get id = none := by
  have order : (cache.queue ++ [id]).Sublist (arrived ++ [id]) := inStep.order.append_right [id]
  have size := inStep.length_le
  obtain ⟨queued, -, -⟩ := inStep
  rcases cache with ⟨map, _ | ⟨first, rest⟩⟩
  · simp only [put, found, nil_append]
    refine ⟨fun _ => ?_, fun new => .of_queue (queued.push new _) (by simp [capacity]) order⟩
    exact not_not.1 fun known => by simpa using (queued.mem_iff id).2 known
  · simp only [put, found, cons_append]
    split
    · refine ⟨fun ⟨queued', _, _⟩ => not_not.1 fun known => queued.not_push_pop known _ queued', fun new => ?_⟩
      refine .of_queue (queued.push new _).pop ?_ ((sublist_cons_self ..).trans order)
      simpa using size
    · next room =>
      refine ⟨fun ⟨queued', _, _⟩ => not_not.1 fun known => queued.not_push known queued'.nodup, fun new => ?_⟩
      exact .of_queue (queued.push new _) (not_lt.1 room) order

end MessageCache

/-! ## Actions -/

/-- The actions on the cache.  `content` is the decoded `message`; times are in nanoseconds. -/
inductive CacheAction (P T S B W H J : Type) where
  | handleIncomingMessage (message : Message T) (content : Gossip B W) (peer : P) (time : ℕ)
  | validateIncomingMessage (id : MessageId S)
  | webRtcRebroadcast (content : Gossip B W) (time : ℕ)
  | broadcastValidatedMessage (id : BroadcastId S H J)
  | pruneMessages (time : ℕ)
  | rejectMessage (id : Option (BroadcastId S H J))

/-- The state that a message gets when it is validated; a block that has no hash gets none. -/
def validatedState (env : Env P T S B W H J) (message : Message T) (content : Gossip B W) (peer : P) (time : ℕ) :
    Option (CacheMessage P T B W H J) :=
  match content with
  | .newState block => (env.tryHash block).map fun hash => .preValidatedBlockMessage hash message peer time
  | .snarkPoolDiff (some work) => some (.preValidatedSnark (env.jobId work) message peer time)
  | _ => some (.preValidated message peer time)

def maxMessageKeepDuration : ℕ := 300000000000

/-- The id and the message under which a message is rebroadcast, unless it cannot be encoded
or signed. -/
def rebroadcast (env : Env P T S B W H J) (content : Gossip B W) (time : ℕ) :
    Option (MessageId S × CacheMessage P T B W H J) :=
  (env.encodeMessage content).bind fun data =>
    let (peer, source) := env.webrtcSource (data.drop 8)
    let message : Message T :=
      ⟨some (env.sourceToBytes source), some data, some (List.replicate 8 0), env.topic, none, none⟩
    (env.sign (data.drop 8) message).map fun signature =>
      (toLex (source, 0), .validated { message with signature := some signature } peer time)

namespace State

open MessageCache

variable [LinearOrder P] [LinearOrder T] (env : Env P T S B W H J)

def handleIncomingMessage (s : State P T S B W H J) (message : Message T) (content : Gossip B W) (peer : P)
    (time : ℕ) : State P T S B W H J :=
  { s with mcache := (s.mcache.put env message content peer time).2 }

/-- The message is taken out of the map, and put back if it can be validated. -/
def validateIncomingMessage (s : State P T S B W H J) (id : MessageId S) : State P T S B W H J :=
  match s.mcache.map.get id with
  | none => s
  | some entry =>
    let map := s.mcache.map.remove id
    match entry with
    | .init message content peer time =>
      match validatedState env message content peer time with
      | some entry => { s with mcache.map := map.insert id entry }
      | none => { s with mcache.map := map }
    | _ => { s with mcache.map := map }

/-- Not enabled while a message with the id waits to be validated. -/
def webRtcRebroadcast (s : State P T S B W H J) (content : Gossip B W) (time : ℕ) : State P T S B W H J :=
  match rebroadcast env content time with
  | none => s
  | some (id, message) =>
    if (s.mcache.getMessage id).isNone then { s with mcache.map := s.mcache.map.insert id message } else s

/-- Peers on the mesh are sent the message, other listed peers only its id. -/
def reduceIncomingValidatedMessage (s : State P T S B W H J) (id : MessageId S) (peer : P) (message : Message T) :
    State P T S B W H J :=
  let topic := (s.topics.get message.topic).getD .empty
  { s with
    topics := s.topics.insert message.topic topic
    clients := s.clients.mapValues fun c client =>
      if c = peer then client
      else
        match topic.get c with
        | none => client
        | some mesh =>
          if mesh.onMesh then client.publish env message
          else client.withControl fun control =>
            { control with ihave := control.ihave ++ [⟨some message.topic, [env.toRawBytes id]⟩] } }

variable [DecidableEq H] [DecidableEq J]

def broadcastValidatedMessage (s : State P T S B W H J) (id : BroadcastId S H J) : State P T S B W H J :=
  match s.mcache.getMessageIdAndMessage id with
  | none => s
  | some (id, entry) =>
    let s := s.reduceIncomingValidatedMessage env id entry.peerId entry.message
    { s with mcache.map := s.mcache.map.modify id fun _ => .validated entry.message entry.peerId entry.time }

def pruneMessages (s : State P T S B W H J) (time : ℕ) : State P T S B W H J :=
  let old := s.mcache.map.entries.filter fun e => decide (e.2.time + maxMessageKeepDuration ≤ time)
  { s with mcache := (old.map Prod.fst).foldl MessageCache.removeMessage s.mcache }

def rejectMessage (s : State P T S B W H J) (id : Option (BroadcastId S H J)) : State P T S B W H J :=
  match id.bind s.mcache.getMessageIdAndMessage with
  | none => s
  | some (id, _) => { s with mcache := s.mcache.removeMessage id }

def cacheStep (s : State P T S B W H J) : CacheAction P T S B W H J → State P T S B W H J
  | .handleIncomingMessage message content peer time => s.handleIncomingMessage env message content peer time
  | .validateIncomingMessage id => s.validateIncomingMessage env id
  | .webRtcRebroadcast content time => s.webRtcRebroadcast env content time
  | .broadcastValidatedMessage id => s.broadcastValidatedMessage env id
  | .pruneMessages time => s.pruneMessages time
  | .rejectMessage id => s.rejectMessage id

/-! ## Runs -/

def arrival : CacheAction P T S B W H J → Option (MessageId S)
  | .handleIncomingMessage message .. => computeMessageId env message
  | _ => none

/-- A step, with a note of the ids that have entered the queue, in their order. -/
def cacheNoting (s : State P T S B W H J × List (MessageId S)) (action : CacheAction P T S B W H J) :
    State P T S B W H J × List (MessageId S) :=
  (s.1.cacheStep env action, s.2 ++ (arrival env action).toList)

/-- Ids are received once and rebroadcast from the cache, and what is to be validated can be. -/
def Orderly (s : State P T S B W H J) : CacheAction P T S B W H J → Prop
  | .handleIncomingMessage message .. => ∀ id, computeMessageId env message = some id → s.mcache.map.get id = none
  | .webRtcRebroadcast content time =>
    ∀ id message, rebroadcast env content time = some (id, message) → s.mcache.map.get id ≠ none
  | .validateIncomingMessage id => ∀ entry, s.mcache.map.get id = some entry →
    ∃ message content peer time, entry = .init message content peer time ∧
      validatedState env message content peer time ≠ none
  | _ => True

variable {env} {s : State P T S B W H J} {arrived : List (MessageId S)}

theorem inStep_validateIncomingMessage_iff (inStep : InStep s.mcache arrived) (id : MessageId S) :
    InStep (s.validateIncomingMessage env id).mcache arrived ↔ s.Orderly env (.validateIncomingMessage id) := by
  rw [Orderly, validateIncomingMessage]
  split
  · next absent => simp [absent, inStep]
  · next entry found =>
    have known : s.mcache.map.get id ≠ none := by simp [found]
    have removed : ¬InStep ⟨s.mcache.map.remove id, s.mcache.queue⟩ arrived :=
      fun inStep' => inStep.queued.not_remove known inStep'.queued
    split
    · next message content peer time =>
      split
      · next entry' valid =>
        refine iff_of_true (inStep.congr fun id' => ?_) fun e eq => ?_
        · rw [get_insert, get_remove]
          by_cases eq : id' = id <;> simp [eq, known]
        · cases found.symm.trans eq
          exact ⟨_, _, _, _, rfl, by simp [valid]⟩
      · next invalid =>
        refine iff_of_false removed fun valid => ?_
        obtain ⟨_, _, _, _, eq, some⟩ := valid _ found
        cases eq
        exact some invalid
    · next other =>
      refine iff_of_false removed fun valid => ?_
      obtain ⟨_, _, _, _, eq, -⟩ := valid _ found
      exact other _ _ _ _ eq

theorem inStep_webRtcRebroadcast_iff (inStep : InStep s.mcache arrived) (content : Gossip B W) (time : ℕ) :
    InStep (s.webRtcRebroadcast env content time).mcache arrived ↔ s.Orderly env (.webRtcRebroadcast content time) := by
  rw [Orderly, webRtcRebroadcast]
  split
  · next fails => simp [fails, inStep]
  · next id message built =>
    have only : (∀ id' message', rebroadcast env content time = some (id', message') → s.mcache.map.get id' ≠ none) ↔
        s.mcache.map.get id ≠ none :=
      ⟨fun all => all _ _ built, fun known id' message' eq => by cases built.symm.trans eq; exact known⟩
    rw [only]
    by_cases known : s.mcache.map.get id = none
    · have enabled : (s.mcache.getMessage id).isNone = true := by simp [MessageCache.getMessage, known]
      rw [if_pos enabled]
      exact iff_of_false (fun inStep' => inStep.queued.not_insert known _ inStep'.queued) (not_not.2 known)
    · refine iff_of_true ?_ known
      split
      · exact inStep.insert known message
      · exact inStep

theorem inStep_cacheNoting_iff (inStep : InStep s.mcache arrived) (action : CacheAction P T S B W H J) :
    InStep (cacheNoting env (s, arrived) action).1.mcache (cacheNoting env (s, arrived) action).2 ↔ s.Orderly env action := by
  cases action with
  | handleIncomingMessage message content peer time =>
    simp only [cacheNoting, cacheStep, handleIncomingMessage, arrival, Orderly]
    rcases found : computeMessageId env message with _ | id
    · simpa [MessageCache.put, found] using inStep
    · simpa using inStep_put_iff inStep found content peer time
  | validateIncomingMessage id =>
    simpa [cacheNoting, arrival, cacheStep] using inStep_validateIncomingMessage_iff inStep id
  | webRtcRebroadcast content time =>
    simpa [cacheNoting, arrival, cacheStep] using inStep_webRtcRebroadcast_iff inStep content time
  | broadcastValidatedMessage id =>
    simp only [cacheNoting, arrival, cacheStep, Orderly, Option.toList_none, append_nil, iff_true]
    unfold broadcastValidatedMessage
    split
    · exact inStep
    · refine inStep.congr fun id' => ?_
      dsimp only [reduceIncomingValidatedMessage]
      rw [get_modify]
      split <;> simp
  | pruneMessages time =>
    simpa [cacheNoting, arrival, cacheStep, Orderly, pruneMessages] using inStep.removeMessages _
  | rejectMessage id =>
    simp only [cacheNoting, arrival, cacheStep, Orderly, Option.toList_none, append_nil, iff_true]
    unfold rejectMessage
    split
    · exact inStep
    · exact inStep.removeMessage _

/-- **The cache is in step**: along a run, the queue has the ids of the cached messages, each
    once and in the order of arrival, exactly if every action is orderly. -/
theorem cache_in_step_iff (env : Env P T S B W H J) (actions : List (CacheAction P T S B W H J)) :
    (∀ before action, before ++ [action] <+: actions →
      InStep (cacheNoting env (before.foldl (cacheNoting env) (.empty, [])) action).1.mcache
        (cacheNoting env (before.foldl (cacheNoting env) (.empty, [])) action).2) ↔
    ∀ before action, before ++ [action] <+: actions →
      (before.foldl (cacheNoting env) (.empty, [])).1.Orderly env action :=
  foldl_good_iff (fun s : State P T S B W H J × List (MessageId S) => InStep s.1.mcache s.2)
    (fun _ action inStep => ⟨inStep_cacheNoting_iff inStep action, (inStep_cacheNoting_iff inStep action).2⟩)
    actions (.of_queue .empty (Nat.zero_le _) (List.Sublist.refl _))

def unsigned : Message ℕ := ⟨some [], none, none, 0, none, none⟩

/-- Two messages with the same source and sequence number but different signatures are
    queued twice; a block without a hash is queued but not in the map; a message that is
    rebroadcast is in the map but not queued. -/
theorem cache_out_of_step : ([.handleIncomingMessage unsigned .transactionPoolDiff 7 0,
        .handleIncomingMessage { unsigned with signature := some [1] } .transactionPoolDiff 7 0].foldl
          (cacheStep sampleEnv) .empty).mcache.queue = [toLex (0, 0), toLex (0, 0)] ∧
      (∃ s, [.handleIncomingMessage unsigned (.newState 0) 7 0, .validateIncomingMessage (toLex (0, 0))].foldl
          (cacheStep sampleEnv) .empty = s ∧ s.mcache.map.entries = [] ∧ s.mcache.queue = [toLex (0, 0)]) ∧
      (∃ s, State.empty.cacheStep sampleEnv (.webRtcRebroadcast .transactionPoolDiff 0) = s ∧
        s.mcache.map.contains (toLex (0, 0)) = true ∧ s.mcache.queue = []) := by
  refine ⟨?_, ⟨_, rfl, ?_⟩, ⟨_, rfl, ?_⟩⟩ <;> decide

end State

end MinaRust.Pubsub
