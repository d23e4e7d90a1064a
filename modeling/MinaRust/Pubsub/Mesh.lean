/-
  The mesh of the gossip protocol: which peers it counts.

  The mesh of a topic is counted over the peers listed in the topic, and the scheduler, when
  it prunes the state of a disconnected peer, removes the client but not the listing.
-/
import MinaRust.Lib.Checked
import MinaRust.Pubsub.Framing

namespace MinaRust.Pubsub.State

open Option OrdMap

variable {P T S B W H J : Type} [LinearOrder S] [LinearOrder P] [LinearOrder T] (env : Env P T S B W H J)

/-! ## Actions -/

inductive MeshAction (P T : Type) where
  /-- `NewStream` with `incoming: true` -/
  | newIncomingStream (peer : P)
  /-- `NewStream` with `incoming: false` -/
  | newOutgoingStream (peer : P) (streamId : ℕ)
  | incomingData (peer : P) (data : Bytes) (now : ℕ)
  | graft (peer : P) (topic : T)
  | prune (peer : P) (topic : T)
  /-- `P2pNetworkSchedulerAction::Prune` of a connection to the peer -/
  | schedulerPrune (peer : P)
deriving DecidableEq

def orInsertClient (s : State P T S B W H J) (peer : P) (new : ClientState T S)
    (change : ClientState T S → ClientState T S) : State P T S B W H J :=
  { s with clients := s.clients.insert peer (change ((s.clients.get peer).getD new)) }

def newIncomingStream (s : State P T S B W H J) (peer : P) : State P T S B W H J :=
  (s.orInsertClient peer { outgoingStreamId := none } id).withTopic env.topic (·.insert peer .initial)

def newOutgoingStream (s : State P T S B W H J) (peer : P) (streamId : ℕ) : State P T S B W H J :=
  let s := s.orInsertClient peer { outgoingStreamId := some streamId } fun client =>
    { client with outgoingStreamId := some streamId }
  let s := s.withTopic env.topic (·.insert peer .initial)
  s.withClient peer fun client =>
    { client with message.subscriptions := client.message.subscriptions ++ [⟨some true, some env.topic⟩] }

def lists (s : State P T S B W H J) (topic : T) (peer : P) : Bool :=
  ((s.topics.get topic).bind (·.get peer)).isSome

def graft (s : State P T S B W H J) (peer : P) (topic : T) : State P T S B W H J :=
  if s.lists topic peer then
    (s.setMesh topic peer .added).withClient peer fun client => client.withControl fun control =>
      { control with graft := control.graft ++ [⟨some topic⟩] }
  else s

def prune (s : State P T S B W H J) (peer : P) (topic : T) : State P T S B W H J :=
  if s.lists topic peer then
    (s.setMesh topic peer .weRefused).withClient peer fun client => client.withControl fun control =>
      { control with prune := control.prune ++ [⟨some topic⟩] }
  else s

def prunePeerState (s : State P T S B W H J) (peer : P) : State P T S B W H J :=
  { s with clients := s.clients.remove peer }

def meshStep (s : State P T S B W H J) : MeshAction P T → State P T S B W H J
  | .newIncomingStream peer => s.newIncomingStream env peer
  | .newOutgoingStream peer streamId => s.newOutgoingStream env peer streamId
  | .incomingData peer data now => s.reduceIncomingData env peer data now
  | .graft peer topic => s.graft peer topic
  | .prune peer topic => s.prune peer topic
  | .schedulerPrune peer => s.prunePeerState peer

/-! ## Listed peers are clients -/

/-- `map.values().filter(|s| s.on_mesh()).count()` -/
def meshSize (map : OrdMap P Mesh) : ℕ := map.entries.countP fun e => e.2.onMesh

/-- Every listed peer is a client, and so the sizes of the meshes count clients only. -/
structure Live (s : State P T S B W H J) : Prop where
  listed : ∀ topic map peer, s.topics.get topic = some map → map.get peer ≠ none → s.clients.contains peer
  counted : ∀ topic map, s.topics.get topic = some map →
    meshSize map = map.entries.countP fun e => e.2.onMesh && s.clients.contains e.1

/-- The scheduler prunes only peers that are in no topic. -/
def Unlisted (s : State P T S B W H J) : MeshAction P T → Prop
  | .schedulerPrune peer => ¬s.Listed peer
  | _ => True

variable {env} {s s' : State P T S B W H J} {peer : P}

theorem contains_iff_bufferOf : s.clients.contains peer ↔ s.bufferOf peer ≠ none := by
  simp [OrdMap.contains, bufferOf, isSome_iff_ne_none]

theorem live_iff : s.Live ↔ ∀ peer, s.Listed peer → s.bufferOf peer ≠ none := by
  constructor
  · rintro live peer ⟨topic, map, here, mem⟩
    exact contains_iff_bufferOf.1 (live.listed topic map peer here mem)
  · intro all
    have listed : ∀ topic map peer, s.topics.get topic = some map → map.get peer ≠ none →
        s.clients.contains peer :=
      fun topic map peer here mem => contains_iff_bufferOf.2 (all peer ⟨topic, map, here, mem⟩)
    refine ⟨listed, fun topic map here => List.countP_congr fun e mem => ?_⟩
    have known : map.get e.1 ≠ none := by
      rw [get_eq_some.2 mem]
      exact some_ne_none _
    simp [listed topic map e.1 here known]

theorem Live.of_leaves (live : s.Live) (leaves : Leaves peer s s') (client : s.bufferOf peer ≠ none) : s'.Live := by
  rw [live_iff] at live ⊢
  intro p listed
  rw [leaves.buffers]
  rcases leaves.listed p listed with rfl | old
  · exact client
  · exact live p old

theorem bufferOf_orInsertClient (new : ClientState T S) (change : ClientState T S → ClientState T S) (p : P) :
    (s.orInsertClient peer new change).bufferOf p ≠ none ↔ p = peer ∨ s.bufferOf p ≠ none := by
  rw [bufferOf, bufferOf, orInsertClient, get_insert]
  split
  · next eq => simp [eq]
  · next ne => simp [ne]

theorem Live.orInsertClient (live : s.Live) (peer : P) (new : ClientState T S) (change : ClientState T S → ClientState T S) :
    (s.orInsertClient peer new change).Live := by
  rw [live_iff] at live ⊢
  intro p listed
  exact (bufferOf_orInsertClient ..).2 (.inr (live p listed))

theorem Leaves.list (topic : T) : Leaves peer s (s.withTopic topic (·.insert peer .initial)) := by
  refine Leaves.withTopic fun map p mem => ?_
  rw [get_insert] at mem
  split at mem
  · next eq => exact .inl eq
  · exact .inr mem

theorem Live.newIncomingStream (live : s.Live) (peer : P) : (s.newIncomingStream env peer).Live :=
  (live.orInsertClient peer _ _).of_leaves (Leaves.list _) ((bufferOf_orInsertClient ..).2 (.inl rfl))

theorem Live.newOutgoingStream (live : s.Live) (peer : P) (streamId : ℕ) :
    (s.newOutgoingStream env peer streamId).Live :=
  (live.orInsertClient peer _ _).of_leaves ((Leaves.list _).trans (Leaves.withClient fun _ => rfl))
    ((bufferOf_orInsertClient ..).2 (.inl rfl))

theorem Live.reduceIncomingData (live : s.Live) (peer : P) (data : Bytes) (now : ℕ) :
    (s.reduceIncomingData env peer data now).Live := by
  unfold State.reduceIncomingData
  split
  · exact live
  · next client found =>
    have inserted := live.orInsertClient peer client fun _ => (client.takeIn env data).1
    dsimp only
    split
    · exact inserted.of_leaves (Leaves.process ..) ((bufferOf_orInsertClient ..).2 (.inl rfl))
    · exact inserted

theorem Live.of_listed (live : s.Live) {topic : T} (lists : s.lists topic peer = true) : s.bufferOf peer ≠ none := by
  obtain ⟨mesh, eq⟩ := isSome_iff_exists.1 lists
  obtain ⟨map, here, mem⟩ := bind_eq_some_iff.1 eq
  exact live_iff.1 live peer ⟨topic, map, here, by simp [mem]⟩

theorem Live.graft (live : s.Live) (peer : P) (topic : T) : (s.graft peer topic).Live := by
  unfold State.graft
  split
  · next listed =>
    exact live.of_leaves ((Leaves.setMesh ..).trans (Leaves.withClient fun client => client.buffer_withControl _))
      (live.of_listed listed)
  · exact live

theorem Live.prune (live : s.Live) (peer : P) (topic : T) : (s.prune peer topic).Live := by
  unfold State.prune
  split
  · next listed =>
    exact live.of_leaves ((Leaves.setMesh ..).trans (Leaves.withClient fun client => client.buffer_withControl _))
      (live.of_listed listed)
  · exact live

theorem live_prunePeerState_iff (live : s.Live) : (s.prunePeerState peer).Live ↔ ¬s.Listed peer := by
  have kept : ∀ p, (s.prunePeerState peer).bufferOf p ≠ none ↔ p ≠ peer ∧ s.bufferOf p ≠ none := by
    intro p
    rw [bufferOf, bufferOf, prunePeerState, get_remove]
    split
    · next eq => simp [eq]
    · next ne => simp [ne]
  rw [live_iff] at live ⊢
  constructor
  · intro live' listed
    exact ((kept peer).1 (live' peer listed)).1 rfl
  · intro gone p listed
    refine (kept p).2 ⟨?_, live p listed⟩
    rintro rfl
    exact gone listed

theorem live_meshStep_iff (live : s.Live) (action : MeshAction P T) : (s.meshStep env action).Live ↔ s.Unlisted action := by
  cases action with
  | newIncomingStream peer => exact iff_of_true (live.newIncomingStream peer) trivial
  | newOutgoingStream peer streamId => exact iff_of_true (live.newOutgoingStream peer streamId) trivial
  | incomingData peer data now => exact iff_of_true (live.reduceIncomingData peer data now) trivial
  | graft peer topic => exact iff_of_true (live.graft peer topic) trivial
  | prune peer topic => exact iff_of_true (live.prune peer topic) trivial
  | schedulerPrune peer => exact live_prunePeerState_iff live

theorem live_empty : (State.empty : State P T S B W H J).Live := by
  rw [live_iff]
  rintro peer ⟨topic, map, here, -⟩
  cases here

/-- **The mesh counts live peers**: along a run, every listed peer is a client exactly if the
    scheduler prunes only peers that are in no topic. -/
theorem mesh_live_iff (env : Env P T S B W H J) (actions : List (MeshAction P T)) :
    (∀ before action, before ++ [action] <+: actions →
      ((before.foldl (meshStep env) .empty).meshStep env action).Live) ↔
    ∀ before action, before ++ [action] <+: actions → (before.foldl (meshStep env) .empty).Unlisted action :=
  foldl_good_iff Live (fun _ action live => ⟨live_meshStep_iff live action, (live_meshStep_iff live action).2⟩)
    actions live_empty

/-- A peer opens a stream, is put on the mesh and is disconnected: the mesh still counts it. -/
theorem mesh_counts_disconnected :
    ∃ s map, [.newIncomingStream 7, .graft 7 0, .schedulerPrune 7].foldl (meshStep sampleEnv) .empty = s ∧
      s.topics.get 0 = some map ∧ map.get 7 = some .added ∧ meshSize map = 1 ∧ s.clients.contains 7 = false := by
  refine ⟨_, _, rfl, rfl, ?_⟩
  decide

end MinaRust.Pubsub.State
