/-
  The gossip protocol: the state of the pubsub layer and its handling of incoming data.

  The bytes that a client sends are length-delimited messages, put together in its buffer
  (`takeIn`); a decoded message changes the topics, the mesh, and what the client is to be
  sent (`process`).  Decoding, the ids of sources, the hashing of blocks and the signatures
  of rebroadcast messages are parameters (`Env`).
-/
import MinaRust.Lib.OrdMap

namespace MinaRust.Pubsub

open OrdMap

abbrev Bytes := List UInt8

/-! ## Messages -/

structure Message (T : Type) where
  from_ : Option Bytes
  data : Option Bytes
  seqno : Option Bytes
  topic : T
  signature : Option Bytes
  key : Option Bytes
deriving DecidableEq

structure SubOpts (T : Type) where
  subscribe : Option Bool
  topicId : Option T
deriving DecidableEq

structure ControlIHave (T : Type) where
  topicId : Option T
  messageIds : List Bytes
deriving DecidableEq

structure ControlIWant where
  messageIds : List Bytes
deriving DecidableEq

structure ControlGraft (T : Type) where
  topicId : Option T
deriving DecidableEq

structure ControlPrune (T : Type) where
  topicId : Option T
deriving DecidableEq

structure ControlMessage (T : Type) where
  ihave : List (ControlIHave T) := []
  iwant : List ControlIWant := []
  graft : List (ControlGraft T) := []
  prune : List (ControlPrune T) := []
deriving DecidableEq

structure Rpc (T : Type) where
  subscriptions : List (SubOpts T) := []
  publish : List (Message T) := []
  control : Option (ControlMessage T) := none
deriving DecidableEq

/-- The failures of `decode_length_delimited` that are told apart by their text. -/
inductive DecodeError where
  | bufferUnderflow
  | other
deriving DecidableEq

/-- `P2pNetworkPubsubMessageCacheId`: the source and the sequence number. -/
abbrev MessageId (S : Type) := S ×ₗ ℕ

/-- `GossipNetMessageV2`: a block, a snark pool diff with or without work, transactions. -/
inductive Gossip (B W : Type) where
  | newState (block : B)
  | snarkPoolDiff (work : Option W)
  | transactionPoolDiff
deriving DecidableEq

/-- The topic of the node and the empty one, the decoder, ids of libp2p, hashes of blocks and
    jobs of snarks, and how a message is encoded, given a source and signed again. -/
structure Env (P T S B W H J : Type) where
  topic : T
  noTopic : T
  decodeLengthDelimited : Bytes → Except DecodeError (Rpc T)
  sourceFromBytes : Bytes → Option S
  toRawBytes : MessageId S → Bytes
  tryHash : B → Option H
  jobId : W → J
  encodeMessage : Gossip B W → Option Bytes
  webrtcSource : Bytes → P × S
  sourceToBytes : S → Bytes
  sign : Bytes → Message T → Option Bytes

/-! ## State -/

inductive CacheMessage (P T B W H J : Type) where
  | init (message : Message T) (content : Gossip B W) (peerId : P) (time : ℕ)
  | preValidatedBlockMessage (blockHash : H) (message : Message T) (peerId : P) (time : ℕ)
  | preValidatedSnark (jobId : J) (message : Message T) (peerId : P) (time : ℕ)
  | preValidated (message : Message T) (peerId : P) (time : ℕ)
  | validated (message : Message T) (peerId : P) (time : ℕ)
deriving DecidableEq

namespace CacheMessage

variable {P T B W H J : Type}

def message : CacheMessage P T B W H J → Message T
  | init message .. | preValidatedBlockMessage _ message .. | preValidatedSnark _ message ..
  | preValidated message .. | validated message .. => message

def peerId : CacheMessage P T B W H J → P
  | init _ _ peerId _ | preValidatedBlockMessage _ _ peerId _ | preValidatedSnark _ _ peerId _
  | preValidated _ peerId _ | validated _ peerId _ => peerId

def time : CacheMessage P T B W H J → ℕ
  | init _ _ _ time | preValidatedBlockMessage _ _ _ time | preValidatedSnark _ _ _ time
  | preValidated _ _ time | validated _ _ time => time

end CacheMessage

structure MessageCache (P T S B W H J : Type) [LinearOrder S] where
  map : OrdMap (MessageId S) (CacheMessage P T B W H J)
  queue : List (MessageId S)

structure RecentlyPublishCache (S : Type) [LinearOrder S] where
  map : OrdMap (MessageId S) Unit := .empty
  queue : List (MessageId S) := []

structure ClientState (T S : Type) [LinearOrder S] where
  outgoingStreamId : Option ℕ
  message : Rpc T := {}
  cache : RecentlyPublishCache S := {}
  buffer : Bytes := []
  incomingMessages : List (Message T) := []

inductive Mesh where
  | initial
  | theyRefused
  | weRefused
  | added
deriving DecidableEq, Repr

def Mesh.onMesh (mesh : Mesh) : Bool := decide (mesh = .added)

structure State (P T S B W H J : Type) [LinearOrder P] [LinearOrder T] [LinearOrder S] where
  clients : OrdMap P (ClientState T S)
  mcache : MessageCache P T S B W H J
  topics : OrdMap T (OrdMap P Mesh)
  /-- for each message id the times at which it was asked for -/
  iwant : List (Bytes × List ℕ)

variable {P T S B W H J : Type} [LinearOrder S]

def State.empty [LinearOrder P] [LinearOrder T] : State P T S B W H J := ⟨.empty, ⟨.empty, []⟩, .empty, []⟩

/-! ## Message ids -/

/-- The number of eight big-endian bytes, zero for anything else. -/
def seqnoFromBytes (bytes : Option Bytes) : ℕ :=
  match bytes with
  | some bytes => if bytes.length = 8 then bytes.foldl (fun n b => n * 256 + b.toNat) 0 else 0
  | none => 0

variable (env : Env P T S B W H J) (message : Message T)

def sourceFromMessage : Option S :=
  env.sourceFromBytes (message.from_.getD [0, 1, 0])

def computeMessageId : Option (MessageId S) :=
  (sourceFromMessage env message).map fun source => toLex (source, seqnoFromBytes message.seqno)

/-! ## Clients -/

namespace ClientState

variable (env : Env P T S B W H J)

def publish (client : ClientState T S) (message : Message T) : ClientState T S :=
  let push (client : ClientState T S) : ClientState T S :=
    { client with message.publish := client.message.publish ++ [message] }
  match computeMessageId env message with
  | none => push client
  | some id =>
    let client' := if client.cache.map.contains id then client else push client
    let map := client.cache.map.insert id ()
    match client.cache.queue ++ [id] with
    | first :: rest =>
      if 50 < (first :: rest).length then { client' with cache := ⟨map.remove first, rest⟩ }
      else { client' with cache := ⟨map, first :: rest⟩ }
    | [] => client'

/-- The control part of the message that is being prepared for the client. -/
def withControl (client : ClientState T S) (change : ControlMessage T → ControlMessage T) : ClientState T S :=
  { client with message.control := some (change (client.message.control.getD {})) }

/-- Any answer of the decoder empties the buffer, except that incomplete data is kept when
    nothing was pending. -/
def takeIn (client : ClientState T S) (data : Bytes) : ClientState T S × Option (Rpc T) :=
  match env.decodeLengthDelimited (client.buffer ++ data) with
  | .ok decoded =>
    ({ client with
        buffer := []
        incomingMessages := client.incomingMessages ++ decoded.publish }, some decoded)
  | .error .bufferUnderflow =>
    if client.buffer.isEmpty then ({ client with buffer := data }, none)
    else ({ client with buffer := [] }, none)
  | .error .other => ({ client with buffer := [] }, none)

variable {env} {client : ClientState T S}

@[simp] theorem buffer_publish (message : Message T) : (client.publish env message).buffer = client.buffer := by
  unfold publish
  dsimp only
  split
  · rfl
  · split
    · split <;> split <;> rfl
    · split <;> rfl

@[simp] theorem buffer_withControl (change : ControlMessage T → ControlMessage T) :
    (client.withControl change).buffer = client.buffer := rfl

end ClientState

/-! ## Incoming data -/

variable [LinearOrder P] [LinearOrder T]

namespace State

variable (env : Env P T S B W H J)

def withTopic (s : State P T S B W H J) (topic : T) (change : OrdMap P Mesh → OrdMap P Mesh) : State P T S B W H J :=
  { s with topics := s.topics.insert topic (change ((s.topics.get topic).getD .empty)) }

def setMesh (s : State P T S B W H J) (topic : T) (peer : P) (mesh : Mesh) : State P T S B W H J :=
  { s with topics := s.topics.modify topic fun map => map.modify peer fun _ => mesh }

def updateSubscription (peer : P) (s : State P T S B W H J) (subscription : SubOpts T) : State P T S B W H J :=
  s.withTopic (subscription.topicId.getD env.noTopic) fun topic =>
    if subscription.subscribe.getD false then
      if topic.contains peer then topic else topic.insert peer .initial
    else topic.remove peer

def updateSubscriptions (s : State P T S B W H J) (peer : P) (subscriptions : List (SubOpts T)) :
    State P T S B W H J :=
  subscriptions.foldl (updateSubscription env peer) s

def applyControlCommands (s : State P T S B W H J) (peer : P) (control : ControlMessage T) : State P T S B W H J :=
  let s := control.graft.foldl (fun s graft => s.setMesh (graft.topicId.getD env.noTopic) peer .added) s
  control.prune.foldl (fun s prune => s.setMesh (prune.topicId.getD env.noTopic) peer .theyRefused) s

def withClient (s : State P T S B W H J) (peer : P) (change : ClientState T S → ClientState T S) :
    State P T S B W H J :=
  { s with clients := s.clients.modify peer change }

def getMessageFromRaw (s : State P T S B W H J) (raw : Bytes) : Option (CacheMessage P T B W H J) :=
  (s.mcache.map.entries.find? fun e => env.toRawBytes e.1 == raw).map Prod.snd

def respondToIwantRequests (s : State P T S B W H J) (peer : P) (requests : List ControlIWant) :
    State P T S B W H J :=
  (requests.flatMap ControlIWant.messageIds).foldl (fun s raw =>
    match s.getMessageFromRaw env raw with
    | some cached => s.withClient peer fun client => client.publish env cached.message
    | none => s) s

def iwantTimeout : ℕ := 5000000000

def recent (now time : ℕ) : Bool := decide (time ≤ now) && decide (now - time < iwantTimeout)

/-- `filter_iwant_message_ids`: whether to ask for the message, which is then noted. -/
def filterIwantMessageId (now : ℕ) (s : State P T S B W H J) (raw : Bytes) : Bool × State P T S B W H J :=
  if (s.getMessageFromRaw env raw).isSome then (false, s)
  else
    match s.iwant.find? fun e => e.1 == raw with
    | some (_, count) =>
      let count := count.filter (recent now)
      let ask := decide (count.length < 3)
      let count := if ask then count ++ [now] else count
      (ask, { s with iwant := s.iwant.replaceF fun e => if e.1 == raw then some (raw, count) else none })
    | none =>
      let iwant := s.iwant ++ [(raw, [now])]
      (true, { s with iwant := if 10 < iwant.length then iwant.tail else iwant })

def filterIwantMessageIds (now : ℕ) (s : State P T S B W H J) : List Bytes → List Bytes × State P T S B W H J
  | [] => ([], s)
  | raw :: rest =>
    let (ask, s) := s.filterIwantMessageId env now raw
    let (wanted, s) := s.filterIwantMessageIds now rest
    (if ask then raw :: wanted else wanted, s)

def processIhaveMessages (s : State P T S B W H J) (peer : P) (ihaves : List (ControlIHave T)) (now : ℕ) :
    State P T S B W H J :=
  ihaves.foldl (fun s ihave =>
    if s.clients.contains peer then
      let (wanted, s) := s.filterIwantMessageIds env now ihave.messageIds
      s.withClient peer fun client => client.withControl fun control =>
        { control with iwant := control.iwant ++ [⟨wanted⟩] }
    else s) s

def process (s : State P T S B W H J) (peer : P) (decoded : Rpc T) (now : ℕ) : State P T S B W H J :=
  let control := decoded.control.getD {}
  let s := s.updateSubscriptions env peer decoded.subscriptions
  let s := s.applyControlCommands env peer control
  let s := s.respondToIwantRequests env peer control.iwant
  s.processIhaveMessages env peer control.ihave now

def reduceIncomingData (s : State P T S B W H J) (peer : P) (data : Bytes) (now : ℕ) : State P T S B W H J :=
  match s.clients.get peer with
  | none => s
  | some client =>
    let (client, decoded) := client.takeIn env data
    let s := { s with clients := s.clients.insert peer client }
    match decoded with
    | some decoded => s.process env peer decoded now
    | none => s

/-! ## What a message leaves as it is -/

variable {env} {s s' s'' : State P T S B W H J} {peer : P}

def bufferOf (s : State P T S B W H J) (peer : P) : Option Bytes := (s.clients.get peer).map ClientState.buffer

def Listed (s : State P T S B W H J) (peer : P) : Prop :=
  ∃ topic map, s.topics.get topic = some map ∧ map.get peer ≠ none

/-- The clients and their buffers are the same, and no peer but `peer` is newly listed. -/
structure Leaves (peer : P) (s s' : State P T S B W H J) : Prop where
  buffers : ∀ p, s'.bufferOf p = s.bufferOf p
  listed : ∀ p, s'.Listed p → p = peer ∨ s.Listed p

namespace Leaves

theorem refl (peer : P) (s : State P T S B W H J) : Leaves peer s s := ⟨fun _ => rfl, fun _ => .inr⟩

theorem trans (first : Leaves peer s s') (second : Leaves peer s' s'') : Leaves peer s s'' :=
  ⟨fun p => (second.buffers p).trans (first.buffers p),
    fun p listed => (second.listed p listed).elim .inl (first.listed p)⟩

theorem foldl {α : Type} {f : State P T S B W H J → α → State P T S B W H J}
    (step : ∀ s a, Leaves peer s (f s a)) (xs : List α) (s : State P T S B W H J) : Leaves peer s (xs.foldl f s) := by
  induction xs generalizing s with
  | nil => exact refl peer s
  | cons a xs ih => exact (step s a).trans (ih (f s a))

theorem withTopic {topic : T} {change : OrdMap P Mesh → OrdMap P Mesh}
    (adds : ∀ map p, (change map).get p ≠ none → p = peer ∨ map.get p ≠ none) :
    Leaves peer s (s.withTopic topic change) := by
  refine ⟨fun _ => rfl, ?_⟩
  rintro p ⟨t, map, here, mem⟩
  rw [State.withTopic, get_insert] at here
  split at here
  · cases here
    refine (adds _ p mem).imp_right fun known => ?_
    cases found : s.topics.get topic with
    | none => simp [found] at known
    | some old => exact ⟨topic, old, found, by simpa [found] using known⟩
  · exact .inr ⟨t, map, here, mem⟩

theorem setMesh (topic : T) (p : P) (mesh : Mesh) : Leaves peer s (s.setMesh topic p mesh) := by
  refine ⟨fun _ => rfl, ?_⟩
  rintro q ⟨t, map, here, mem⟩
  rw [State.setMesh, get_modify] at here
  split at here
  · obtain ⟨old, found, rfl⟩ := Option.map_eq_some_iff.1 here
    refine .inr ⟨t, old, found, fun none => mem ?_⟩
    rw [get_modify, none]
    split <;> rfl
  · exact .inr ⟨t, map, here, mem⟩

theorem withClient {p : P} {change : ClientState T S → ClientState T S}
    (keeps : ∀ client, (change client).buffer = client.buffer) : Leaves peer s (s.withClient p change) := by
  refine ⟨fun q => ?_, fun _ => .inr⟩
  rw [bufferOf, bufferOf, State.withClient, get_modify]
  split
  · rw [Option.map_map]
    exact Option.map_congr fun client _ => keeps client
  · rfl

theorem updateSubscriptions (subscriptions : List (SubOpts T)) :
    Leaves peer s (s.updateSubscriptions env peer subscriptions) := by
  refine foldl (fun s subscription => withTopic fun map p mem => ?_) subscriptions s
  split at mem
  · split at mem
    · exact .inr mem
    · rw [get_insert] at mem
      split at mem
      · next eq => exact .inl eq
      · exact .inr mem
  · rw [get_remove] at mem
    split at mem
    · exact absurd rfl mem
    · exact .inr mem

theorem applyControlCommands (control : ControlMessage T) :
    Leaves peer s (s.applyControlCommands env peer control) :=
  (foldl (fun _ _ => setMesh ..) control.graft s).trans (foldl (fun _ _ => setMesh ..) control.prune _)

theorem respondToIwantRequests (requests : List ControlIWant) :
    Leaves peer s (s.respondToIwantRequests env peer requests) := by
  refine foldl (fun s raw => ?_) _ s
  split
  · exact withClient fun client => client.buffer_publish _
  · exact refl peer s

theorem filterIwantMessageId (now : ℕ) (raw : Bytes) : Leaves peer s (s.filterIwantMessageId env now raw).2 := by
  unfold State.filterIwantMessageId
  split
  · exact refl peer s
  · split <;> exact ⟨fun _ => rfl, fun _ => .inr⟩

theorem filterIwantMessageIds (now : ℕ) (raws : List Bytes) :
    Leaves peer s (s.filterIwantMessageIds env now raws).2 := by
  induction raws generalizing s with
  | nil => exact refl peer s
  | cons raw raws ih => exact (filterIwantMessageId now raw).trans ih

theorem processIhaveMessages (ihaves : List (ControlIHave T)) (now : ℕ) :
    Leaves peer s (s.processIhaveMessages env peer ihaves now) := by
  refine foldl (fun s ihave => ?_) ihaves s
  split
  · exact (filterIwantMessageIds now ihave.messageIds).trans (withClient fun client => client.buffer_withControl _)
  · exact refl peer s

theorem process (decoded : Rpc T) (now : ℕ) : Leaves peer s (s.process env peer decoded now) :=
  (updateSubscriptions decoded.subscriptions).trans <| (applyControlCommands _).trans <|
    (respondToIwantRequests _).trans (processIhaveMessages _ now)

end Leaves

end State

end MinaRust.Pubsub
