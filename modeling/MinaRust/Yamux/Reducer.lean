/-
  Yamux: the reducer of one connection (`p2p_network_yamux_reducer.rs`).

  `reducer` is one action, `turn` an action together with the `OutgoingFrame` actions that it
  leads to, in the order of their dispatch; what is left goes to the other layers.  Of the
  connection only what this reducer reads or writes is here.
-/
import MinaRust.Yamux.State

namespace MinaRust.Yamux

open List Option

structure Connection where
  yamux : P2pNetworkYamuxState
  /-- `connection_state.streams`, with `select.is_incoming()`. -/
  streams : OrdMap StreamId Bool
  /-- `noise.peer_id()` is known. -/
  peerId : Bool
  maxStreams : Limit

structure YamuxPing where
  streamId : StreamId
  /-- `opaque` -/
  value : U32
  response : Bool
  deriving DecidableEq, Repr

inductive Action where
  | incomingData (data : Data)
  | outgoingData (streamId : StreamId) (data : Data) (flags : YamuxFlags)
  | incomingFrame
  | outgoingFrame (frame : YamuxFrame)
  | pingStream (ping : YamuxPing)
  | openStream (streamId : StreamId)
  deriving DecidableEq, Repr

inductive Dispatched where
  | incomingFrame
  | outgoingFrame (frame : YamuxFrame)
  /-- `P2pNetworkNoiseAction::OutgoingData` with the bytes of the frame. -/
  | noise (frame : YamuxFrame)
  /-- `P2pNetworkSelectAction::Init` -/
  | selectInit (streamId : StreamId) (incoming : Bool)
  /-- `P2pNetworkSelectAction::IncomingData` -/
  | selectIncomingData (streamId : StreamId) (data : Data) (fin : Bool)
  /-- `P2pNetworkSchedulerAction::Error` -/
  | streamReset (streamId : StreamId)
  | yamuxOverflow (streamId : StreamId)
  deriving DecidableEq, Repr

def YamuxPing.intoFrame (ping : YamuxPing) : YamuxFrame where
  flags :=
    if ping.response then { YamuxFlags.empty with ACK := true }
    else if ping.streamId = 0 then { YamuxFlags.empty with SYN := true }
    else .empty
  streamId := ping.streamId
  inner := .ping ping.value

namespace YamuxStreamState

variable (stream : YamuxStreamState) (flags : YamuxFlags)

/-- The flags of the next data frame: those of the action, and the half of the
handshake that is still to be sent. -/
def outgoingFlags : YamuxFlags :=
  if !stream.incoming && !stream.established && !stream.synSent then { flags with SYN := true }
  else if stream.incoming && !stream.established then { flags with ACK := true }
  else flags

/-- A data frame beyond the window is cut: the rest goes to the front of the queue. `none` is a
    queue above the limit. -/
def charge (limit : Limit) (stream : YamuxStreamState) (frame : YamuxFrame) :
    YamuxStreamState × Option YamuxFrame :=
  match frame.inner with
  | .data _ =>
    if frame.lenAsU32 ≤ stream.windowTheirs then
      ({ stream with windowTheirs := stream.windowTheirs - frame.lenAsU32 }, some frame)
    else
      let (sent, remaining) := frame.splitAt stream.windowTheirs
      let pending := remaining.toList ++ stream.pending
      ({ stream with windowTheirs := 0, pending := pending },
        if limit.exceededBy (pending.map YamuxFrame.len).sum then none else some sent)
  | .windowUpdate difference =>
    let ours := min (stream.windowOurs + difference) U32.MAX
    ({ stream with
        windowOurs := ours
        maxWindowSize :=
          if stream.maxWindowSize < ours then min ours MAX_WINDOW_SIZE else stream.maxWindowSize },
      some frame)
  | _ => (stream, some frame)

def noteFlags : YamuxStreamState :=
  if flags.FIN then { stream with writable := false }
  else
    { stream with
      established := stream.established || flags.ACK
      synSent := stream.synSent || flags.SYN }

/-- The frames that a window update frees, up to the first beyond the window,
and those that stay. -/
def drain : ℕ → List YamuxFrame → List YamuxFrame × List YamuxFrame
  | _, [] => ([], [])
  | window, frame :: pending =>
    if frame.lenAsU32 ≤ window then
      let (freed, rest) := drain (window - frame.lenAsU32) pending
      (frame :: freed, rest)
    else ([frame], pending)

/-- A received window update; `pending_outgoing` is the second component. -/
def credit (difference : U32) : YamuxStreamState × List YamuxFrame :=
  let theirs := min (stream.windowTheirs + difference) U32.MAX
  if 0 < difference then
    let (freed, rest) := drain theirs stream.pending
    ({ stream with windowTheirs := theirs, pending := rest }, freed)
  else ({ stream with windowTheirs := theirs }, [])

end YamuxStreamState

namespace Connection

open YamuxStreamState

def init (messageSizeLimit pendingOutgoingLimit maxStreams : Limit) : Connection :=
  ⟨.init messageSizeLimit pendingOutgoingLimit, .empty, true, maxStreams⟩

variable (c : Connection) (id : StreamId)

def stream : Option YamuxStreamState := c.yamux.streams.get id

variable (stream : YamuxStreamState)

def setStream : Connection :=
  { c with yamux.streams := c.yamux.streams.insert id stream }

/-! ## Actions -/

variable (frame : YamuxFrame)

def outgoingFrame : Connection × List Dispatched :=
  match c.stream frame.streamId with
  | none => (c, [])
  | some stream =>
    match stream.charge c.yamux.pendingOutgoingLimit frame with
    | (stream', none) => (c.setStream frame.streamId stream', [.yamuxOverflow frame.streamId])
    | (stream', some sent) =>
      let c' := c.setStream frame.streamId (stream'.noteFlags sent.flags)
      ({ c' with streams := if sent.flags.FIN then c.streams.remove frame.streamId else c.streams },
        [.noise sent])

/-- A received frame may open the stream (`SYN`) or answer its opening (`ACK`). -/
def handshake : Connection :=
  let opened : Connection :=
    if frame.flags.SYN then
      { c.setStream frame.streamId accepted with
        streams :=
          if frame.streamId ≠ 0 then c.streams.insert frame.streamId true else c.streams }
    else c
  if frame.flags.ACK then
    opened.setStream frame.streamId
      { (opened.stream frame.streamId).getD .default with established := true }
  else opened

/-- What a received frame does to the windows and the session; the frames that it
frees from the queue of its stream. -/
def account : Connection × List YamuxFrame :=
  match frame.inner with
  | .data _ =>
    match c.stream frame.streamId with
    | some stream =>
      (c.setStream frame.streamId { stream with windowOurs := stream.windowOurs - frame.lenAsU32 }, [])
    | none => (c, [])
  | .windowUpdate difference =>
    let (stream, freed) := ((c.stream frame.streamId).getD accepted).credit difference
    (c.setStream frame.streamId stream, freed)
  | .ping _ => (c, [])
  | .goAway res => ({ c with yamux := c.yamux.setRes res }, [])

def incomingStreams : ℕ := c.streams.entries.countP fun e => e.2

/-- The answer to a stream that the peer opened: closed at once when there are too many. -/
def openReplies : List Dispatched :=
  if frame.flags.SYN ∧ frame.streamId ≠ 0 then
    if c.maxStreams.exceededBy c.incomingStreams then
      [.outgoingFrame ⟨{ YamuxFlags.empty with FIN := true }, frame.streamId, .data []⟩]
    else [.selectInit frame.streamId true]
  else []

/-- When our window is below half of its maximum, more is granted. -/
def windowReplies (streamId : StreamId) : List Dispatched :=
  if stream.windowOurs < stream.maxWindowSize / 2 then
    [.outgoingFrame ⟨.empty, streamId,
      .windowUpdate (Fin.ofNat _ (min (min (stream.maxWindowSize * 2) U32.MAX) (1024 * 1024)))⟩]
  else []

def replies (freed : List YamuxFrame) : List Dispatched :=
  match c.stream frame.streamId with
  | none => []
  | some stream =>
    if !c.peerId then []
    else if frame.flags.RST then [.streamReset frame.streamId]
    else
      c.openReplies frame ++
        match frame.inner with
        | .data data =>
          windowReplies stream frame.streamId ++ [.selectIncomingData frame.streamId data frame.flags.FIN]
        | .ping value =>
          if frame.flags.ACK then []
          else [.outgoingFrame (YamuxPing.intoFrame ⟨frame.streamId, value, true⟩)]
        | .windowUpdate _ => freed.map .outgoingFrame
        | .goAway _ => []

def handleFrame : Connection × List Dispatched :=
  let (c', freed) := (c.handshake frame).account frame
  (c', c'.replies frame freed)

def reducer (grow : ℕ → ℕ → ℕ) (c : Connection) : Action → Connection × List Dispatched
  | action =>
    if c.yamux.terminated.isSome then (c, [])
    else
      match action with
      | .incomingData data =>
        let yamux := c.yamux.receive grow data
        ({ c with yamux := yamux }, yamux.incoming.map fun _ => .incomingFrame)
      | .outgoingData streamId data flags =>
        match c.stream streamId with
        | none => (c, [])
        | some stream =>
          (c, [.outgoingFrame ⟨stream.outgoingFlags flags, streamId, .data data⟩])
      | .incomingFrame =>
        match c.yamux.incoming with
        | [] => (c, [])
        | frame :: rest => handleFrame { c with yamux.incoming := rest } frame
      | .outgoingFrame frame => c.outgoingFrame frame
      | .pingStream ping => (c, [.outgoingFrame ping.intoFrame])
      | .openStream streamId =>
        ({ c.setStream streamId .default with streams := c.streams.insert streamId false },
          if c.peerId then [.selectInit streamId false] else [])

/-! ## Turns -/

section
variable (grow : ℕ → ℕ → ℕ)

/-- The dispatched `OutgoingFrame` actions, one after the other; the rest is
handed on. -/
def perform (c : Connection) : List Dispatched → Connection × List Dispatched
  | [] => (c, [])
  | d :: ds =>
    let (c₁, out) :=
      match d with
      | .outgoingFrame frame => c.reducer grow (.outgoingFrame frame)
      | _ => (c, [d])
    let (c₂, out') := c₁.perform ds
    (c₂, out ++ out')

def turn (c : Connection) (action : Action) : Connection × List Dispatched :=
  let (c', ds) := c.reducer grow action
  c'.perform grow ds

def queue (c : Connection) (frame : YamuxFrame) : Connection :=
  { c with yamux := c.yamux.pushIncoming frame }

end

end Connection

def Dispatched.sent : List Dispatched → List YamuxFrame :=
  List.filterMap fun
    | .noise frame => some frame
    | _ => none

/-- Whether the peer is given up because too much is queued for it. -/
def Dispatched.overflow (ds : List Dispatched) : Bool :=
  ds.any fun
    | .yamuxOverflow _ => true
    | _ => false

@[simp] theorem Dispatched.sent_append (xs ys : List Dispatched) : sent (xs ++ ys) = sent xs ++ sent ys :=
  filterMap_append

@[simp] theorem Dispatched.overflow_append (xs ys : List Dispatched) :
    overflow (xs ++ ys) = (overflow xs || overflow ys) :=
  any_append

/-! ## What the steps do -/

/-- A data frame is sent whole, or its first part is sent and the rest queued in front. -/
theorem YamuxStreamState.charge_data {limit : Limit} {stream stream' : YamuxStreamState}
    {flags : YamuxFlags} {id : StreamId} {data : Data} {sent : YamuxFrame}
    (charged : stream.charge limit ⟨flags, id, .data data⟩ = (stream', some sent)) :
    min data.length U32.MAX ≤ stream.windowTheirs ∧ sent = ⟨flags, id, .data data⟩ ∧
        stream' = { stream with windowTheirs := stream.windowTheirs - min data.length U32.MAX } ∨
      stream.windowTheirs < min data.length U32.MAX ∧
        sent = ⟨{ flags with FIN := false }, id, .data (data.take stream.windowTheirs)⟩ ∧
        stream' = { stream with
            windowTheirs := 0
            pending :=
              ⟨{ flags with SYN := false, ACK := false }, id, .data (data.drop stream.windowTheirs)⟩ ::
                stream.pending } := by
  simp only [charge, YamuxFrame.lenAsU32, YamuxFrame.len, YamuxFrame.payload, YamuxFrame.splitAt] at charged
  split at charged
  · next fits =>
    cases charged
    exact .inl ⟨fits, rfl, rfl⟩
  · next beyond =>
    have longer : ¬ data.length ≤ stream.windowTheirs := fun le => beyond (by omega)
    simp only [if_neg longer, toList_some, cons_append, nil_append,
      Prod.mk.injEq, ite_none_left_eq_some, some.injEq] at charged
    obtain ⟨rfl, -, rfl⟩ := charged
    exact .inr ⟨not_le.1 beyond, rfl, rfl⟩

namespace YamuxStreamState

variable (stream : YamuxStreamState) (flags : YamuxFlags)

@[simp] theorem noteFlags_windowTheirs : (stream.noteFlags flags).windowTheirs = stream.windowTheirs := by
  rw [noteFlags]
  split <;> rfl

@[simp] theorem noteFlags_windowOurs : (stream.noteFlags flags).windowOurs = stream.windowOurs := by
  rw [noteFlags]
  split <;> rfl

@[simp] theorem noteFlags_maxWindowSize : (stream.noteFlags flags).maxWindowSize = stream.maxWindowSize := by
  rw [noteFlags]
  split <;> rfl

@[simp] theorem noteFlags_pending : (stream.noteFlags flags).pending = stream.pending := by
  rw [noteFlags]
  split <;> rfl

@[simp] theorem outgoingFlags_FIN : (stream.outgoingFlags flags).FIN = flags.FIN := by
  rw [outgoingFlags]
  split
  · rfl
  · split <;> rfl

end YamuxStreamState

namespace Connection

variable {grow : ℕ → ℕ → ℕ} {c c' : Connection} {id : StreamId} {frame : YamuxFrame}

theorem stream_setStream (c : Connection) (id id' : StreamId) (stream : YamuxStreamState) :
    (c.setStream id stream).stream id' = if id' = id then some stream else c.stream id' :=
  OrdMap.get_insert ..

@[simp] theorem stream_setStream_self (c : Connection) (id : StreamId) (stream : YamuxStreamState) :
    (c.setStream id stream).stream id = some stream := by
  rw [stream_setStream, if_pos rfl]

theorem reducer_outgoingFrame_eq (grow : ℕ → ℕ → ℕ) (c : Connection) (frame : YamuxFrame) :
    c.reducer grow (.outgoingFrame frame) =
      if c.yamux.terminated.isSome then (c, []) else c.outgoingFrame frame := rfl

theorem reducer_outgoingFrame (live : c.yamux.terminated = none) :
    c.reducer grow (.outgoingFrame frame) = c.outgoingFrame frame := by
  simp [reducer_outgoingFrame_eq, live]

theorem perform_append (c : Connection) (xs ys : List Dispatched) : c.perform grow (xs ++ ys) =
      (((c.perform grow xs).1.perform grow ys).1,
        (c.perform grow xs).2 ++ ((c.perform grow xs).1.perform grow ys).2) := by
  induction xs generalizing c with
  | nil => rfl
  | cons d xs ih =>
    cases d <;> simp [perform, ih]

variable {stream : YamuxStreamState}

theorem turn_outgoingData (live : c.yamux.terminated = none) (found : c.stream id = some stream) (data : Data)
    (flags : YamuxFlags) :
    c.turn grow (.outgoingData id data flags) =
      c.outgoingFrame ⟨stream.outgoingFlags flags, id, .data data⟩ := by
  have dispatched : c.reducer grow (.outgoingData id data flags) =
      (c, [.outgoingFrame ⟨stream.outgoingFlags flags, id, .data data⟩]) := by
    simp [reducer, live, found]
  simp [turn, dispatched, perform, reducer_outgoingFrame live, append_nil]

theorem turn_openStream (grow : ℕ → ℕ → ℕ) (id : StreamId) (live : c.yamux.terminated = none) :
    ∃ ds, c.turn grow (.openStream id) =
        ({ c.setStream id .default with streams := c.streams.insert id false }, ds) ∧
      Dispatched.overflow ds = false ∧ Dispatched.sent ds = [] := by
  cases known : c.peerId <;> simp [turn, reducer, live, known, perform, Dispatched.overflow, Dispatched.sent]

theorem turn_incomingFrame (live : c.yamux.terminated = none) (empty : c.yamux.incoming = []) :
    (c.queue frame).turn grow .incomingFrame =
      (c.handleFrame frame).1.perform grow (c.handleFrame frame).2 := by
  have popped : (c.queue frame).reducer grow .incomingFrame = c.handleFrame frame := by
    obtain ⟨⟨_, _, _, incoming, _, terminated⟩, _, _, _⟩ := c
    cases empty
    cases live
    rfl
  rw [turn, popped]

theorem outgoingFrame_eq {stream' : YamuxStreamState} {sent : YamuxFrame}
    (found : c.stream frame.streamId = some stream)
    (charged : stream.charge c.yamux.pendingOutgoingLimit frame = (stream', some sent)) :
    c.outgoingFrame frame = ({ c.setStream frame.streamId (stream'.noteFlags sent.flags) with
          streams := if sent.flags.FIN then c.streams.remove frame.streamId else c.streams },
        [.noise sent]) := by
  simp [outgoingFrame, found, charged]

theorem outgoingFrame_of_found {ds : List Dispatched} (found : c.stream frame.streamId = some stream)
    (run : c.outgoingFrame frame = (c', ds)) (calm : Dispatched.overflow ds = false) :
    ∃ stream' sent, stream.charge c.yamux.pendingOutgoingLimit frame = (stream', some sent) ∧
      ds = [.noise sent] ∧
      (∀ j, c'.stream j =
        if j = frame.streamId then some (stream'.noteFlags sent.flags) else c.stream j) ∧
      c'.yamux.terminated = c.yamux.terminated ∧ c'.yamux.incoming = c.yamux.incoming := by
  obtain ⟨stream', sent?, charged⟩ : ∃ stream' sent?,
    stream.charge c.yamux.pendingOutgoingLimit frame = (stream', sent?) := ⟨_, _, rfl⟩
  cases sent? with
  | none =>
    simp only [outgoingFrame, found, charged] at run
    cases run
    cases calm
  | some sent =>
    rw [outgoingFrame_eq found charged] at run
    cases run
    exact ⟨stream', sent, charged, rfl, fun j => stream_setStream .., rfl, rfl⟩

end Connection

end MinaRust.Yamux
