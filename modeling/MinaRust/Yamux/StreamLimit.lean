/-
  How many streams a peer can open on a connection.

  `max_streams` is tested on one of the two maps, after the new stream is in both, and the
  answer that closes a stream too many removes it from that map only; nothing makes the map
  of yamux smaller.
-/
import MinaRust.Lib.Checked
import MinaRust.Yamux.Reducer

namespace MinaRust.Yamux

open YamuxStreamState List YamuxFrame Connection

def YamuxFrame.isWindowUpdate (frame : YamuxFrame) : Bool :=
  match frame.inner with
  | .windowUpdate _ => true
  | _ => false

def YamuxFrame.isGoAway (frame : YamuxFrame) : Bool :=
  match frame.inner with
  | .goAway _ => true
  | _ => false

namespace Connection

variable {grow : ℕ → ℕ → ℕ} {c c' : Connection} {id : StreamId} {frame : YamuxFrame}

/-! ## Runs -/

/-- A received frame and the answers to it.  Once the session is terminated, nothing
is parsed any more. -/
def receiveFrame (grow : ℕ → ℕ → ℕ) (c : Connection) (frame : YamuxFrame) : Except Unit Connection :=
  .ok (if c.yamux.terminated.isSome then c else ((c.queue frame).turn grow .incomingFrame).1)

def size (c : Connection) : ℕ := c.yamux.streams.entries.length

/-- At most `limit` streams of the peer, and at most one entry more. -/
structure Bounded (limit : ℕ) (c : Connection) : Prop where
  incoming : c.incomingStreams ≤ limit
  size : c.size ≤ limit + 1

def Creates (c : Connection) (frame : YamuxFrame) : Prop :=
  c.stream frame.streamId = none ∧
    (frame.flags.SYN = true ∨ frame.flags.ACK = true ∨ frame.isWindowUpdate = true)

instance (c : Connection) (frame : YamuxFrame) : Decidable (c.Creates frame) :=
  inferInstanceAs (Decidable (_ ∧ _))

def Opens (c : Connection) (frame : YamuxFrame) : Prop :=
  frame.flags.SYN = true ∧ frame.streamId ≠ 0 ∧ c.streams.get frame.streamId ≠ some true

instance (c : Connection) (frame : YamuxFrame) : Decidable (c.Opens frame) :=
  inferInstanceAs (Decidable (_ ∧ _))

/-- The frame gets as far as the test of the limit, and its answer is sent. -/
def Answered (c : Connection) (frame : YamuxFrame) : Prop :=
  c.peerId = true ∧ frame.flags.RST = false ∧ frame.isGoAway = false

instance (c : Connection) (frame : YamuxFrame) : Decidable (c.Answered frame) :=
  inferInstanceAs (Decidable (_ ∧ _))

def Admissible (limit : ℕ) (c : Connection) (frame : YamuxFrame) : Prop :=
  c.yamux.terminated = none →
    (c.Creates frame → c.size ≤ limit) ∧ (c.Opens frame → c.incomingStreams < limit ∨ c.Answered frame)

/-! ## Outgoing frames -/

theorem size_setStream (c : Connection) (id : StreamId) (stream : YamuxStreamState) :
    (c.setStream id stream).size = c.size + if c.stream id = none then 1 else 0 := by
  have counted := c.yamux.streams.length_insert id stream
  rw [size, size, setStream, Connection.stream]
  cases found : c.yamux.streams.get id <;> rw [found] at counted <;> simp at counted ⊢ <;> omega

theorem size_setStream_of_found (found : c.stream id ≠ none) (stream : YamuxStreamState) :
    (c.setStream id stream).size = c.size := by
  rw [size_setStream, if_neg found, Nat.add_zero]

theorem size_outgoingFrame (c : Connection) (frame : YamuxFrame) : (c.outgoingFrame frame).1.size = c.size := by
  unfold outgoingFrame
  split
  · rfl
  · next stream found =>
    split <;> exact size_setStream_of_found (by simp [found]) _

theorem size_perform (c : Connection) (ds : List Dispatched) : (c.perform grow ds).1.size = c.size := by
  induction ds generalizing c with
  | nil => rfl
  | cons d ds ih =>
    cases d with
    | outgoingFrame frame =>
      have first : (c.reducer grow (.outgoingFrame frame)).1.size = c.size := by
        rw [reducer_outgoingFrame_eq]
        split
        · rfl
        · exact size_outgoingFrame c frame
      exact (ih _).trans first
    | _ => exact ih c

def Idle (c : Connection) : Prop := ∀ id stream, c.stream id = some stream → stream.pending = []

variable {stream : YamuxStreamState}

theorem Idle.setStream (idle : c.Idle) (none : stream.pending = []) : (c.setStream id stream).Idle := by
  intro j stream' found
  rw [stream_setStream] at found
  split at found
  · cases found
    exact none
  · exact idle j stream' found

theorem charge_of_empty (limit : Limit) (stream : YamuxStreamState) (empty : frame.len = 0) :
    ∃ stream', stream.charge limit frame = (stream', some frame) ∧ stream'.pending = stream.pending := by
  have fits : frame.lenAsU32 ≤ stream.windowTheirs := by simp [lenAsU32, empty]
  unfold charge
  split
  · rw [if_pos fits]
    exact ⟨_, rfl, rfl⟩
  · exact ⟨_, rfl, rfl⟩
  · exact ⟨_, rfl, rfl⟩

/-- A connection on which nothing waits and the stream `id` is there. -/
structure Ready (limit : ℕ) (id : StreamId) (c : Connection) : Prop where
  live : c.yamux.terminated = none
  empty : c.yamux.incoming = []
  limit : c.maxStreams = .some limit
  idle : c.Idle
  found : c.stream id ≠ none

variable {limit : ℕ}

/-- Sending a frame without data closes the stream of the connection if it carries `FIN`. -/
theorem Ready.outgoingFrame (ready : Ready limit id c) (frame : YamuxFrame) (empty : frame.len = 0) (on : frame.streamId = id) :
    Ready limit id (c.outgoingFrame frame).1 ∧
      (c.outgoingFrame frame).1.streams = if frame.flags.FIN then c.streams.remove id else c.streams := by
  subst on
  obtain ⟨stream, found⟩ := Option.ne_none_iff_exists'.1 ready.found
  obtain ⟨stream', charged, pending⟩ := charge_of_empty c.yamux.pendingOutgoingLimit stream empty
  rw [outgoingFrame_eq found charged]
  refine ⟨⟨ready.live, ready.empty, ready.limit, ready.idle.setStream ?_, ?_⟩, rfl⟩
  · rw [noteFlags_pending, pending]
    exact ready.idle _ _ found
  · exact fun none => by simpa using (stream_setStream_self ..).symm.trans none

/-- An action that sends at most a frame without data and without `FIN` on the stream. -/
def Light (id : StreamId) : Dispatched → Prop
  | .outgoingFrame frame => frame.len = 0 ∧ frame.streamId = id ∧ frame.flags.FIN = false
  | _ => True

theorem Ready.perform (grow : ℕ → ℕ → ℕ) {ds : List Dispatched} (ready : Ready limit id c) (light : ∀ d ∈ ds, Light id d) :
    Ready limit id (c.perform grow ds).1 ∧ (c.perform grow ds).1.streams = c.streams := by
  induction ds generalizing c with
  | nil => exact ⟨ready, rfl⟩
  | cons d ds ih =>
    have here := light d mem_cons_self
    have rest := fun d mem => light d (mem_cons_of_mem _ mem)
    cases d with
    | outgoingFrame frame =>
      obtain ⟨empty, on, noFin⟩ := here
      obtain ⟨ready₁, streams₁⟩ := ready.outgoingFrame frame empty on
      obtain ⟨ready', streams'⟩ := ih ready₁ rest
      have eq : (c.perform grow (.outgoingFrame frame :: ds)).1 =
          ((c.outgoingFrame frame).1.perform grow ds).1 := by
        simp [Connection.perform, reducer_outgoingFrame ready.live]
      rw [eq, streams', streams₁, noFin]
      exact ⟨ready', rfl⟩
    | _ => exact ih ready rest

theorem perform_terminated (ended : c.yamux.terminated.isSome = true) (ds : List Dispatched) :
    (c.perform grow ds).1 = c := by
  induction ds with
  | nil => rfl
  | cons d ds ih =>
    cases d with
    | outgoingFrame frame =>
      have first : c.reducer grow (.outgoingFrame frame) = (c, []) := by
        rw [reducer_outgoingFrame_eq, if_pos ended]
      simp only [perform, first, ih]
    | _ => exact ih

/-! ## Received frames -/

@[simp] theorem stream_streams (c : Connection) (streams : OrdMap StreamId Bool) (j : StreamId) :
    Connection.stream { c with streams := streams } j = c.stream j := rfl

@[simp] theorem size_streams (c : Connection) (streams : OrdMap StreamId Bool) :
    Connection.size { c with streams := streams } = c.size := rfl

theorem handshake_stream_self (c : Connection) (frame : YamuxFrame) :
    (c.handshake frame).stream frame.streamId =
      if frame.flags.SYN then some { accepted with established := frame.flags.ACK }
      else if frame.flags.ACK then
        some { (c.stream frame.streamId).getD .default with established := true }
      else c.stream frame.streamId := by
  unfold handshake
  cases frame.flags.SYN <;> cases frame.flags.ACK <;> simp
  rfl

theorem handshake_streams (c : Connection) (frame : YamuxFrame) : (c.handshake frame).streams =
      if frame.flags.SYN = true ∧ frame.streamId ≠ 0 then c.streams.insert frame.streamId true
      else c.streams := by
  unfold handshake
  cases frame.flags.SYN <;> cases frame.flags.ACK <;> by_cases zero : frame.streamId = 0 <;>
    simp [zero, setStream]

theorem handshake_size (c : Connection) (frame : YamuxFrame) : (c.handshake frame).size = c.size +
      if c.stream frame.streamId = none ∧ (frame.flags.SYN = true ∨ frame.flags.ACK = true) then 1 else 0 := by
  unfold handshake
  cases frame.flags.SYN <;> cases frame.flags.ACK <;> simp [size_setStream]

theorem handshake_idle (idle : c.Idle) (frame : YamuxFrame) : (c.handshake frame).Idle := by
  have pending : ((c.stream frame.streamId).getD .default).pending = [] := by
    cases found : c.stream frame.streamId with
    | none => rfl
    | some stream => exact idle _ stream found
  unfold handshake
  cases frame.flags.SYN <;> cases frame.flags.ACK <;> simp
  · exact idle
  · exact idle.setStream pending
  · exact idle.setStream rfl
  · exact (idle.setStream rfl : (c.setStream _ _).Idle).setStream rfl

theorem credit_of_idle (none : stream.pending = []) (difference : U32) :
    (stream.credit difference).1.pending = [] ∧ (stream.credit difference).2 = [] := by
  simp only [credit, none, drain]
  split <;> exact ⟨rfl, rfl⟩

/-- What a received frame changes besides the windows: a window update makes its
stream, and the end of the session is noted. -/
structure Accounted (c c' : Connection) (frame : YamuxFrame) : Prop where
  streams : c'.streams = c.streams
  peerId : c'.peerId = c.peerId
  limit : c'.maxStreams = c.maxStreams
  incoming : c'.yamux.incoming = c.yamux.incoming
  idle : c'.Idle
  size : c'.size = c.size +
    if c.stream frame.streamId = none ∧ frame.isWindowUpdate = true then 1 else 0
  found : c.stream frame.streamId ≠ none → c'.stream frame.streamId ≠ none
  live : frame.isGoAway = false → c'.yamux.terminated = c.yamux.terminated
  ended : frame.isGoAway = true → c'.yamux.terminated.isSome = true

theorem account_spec (idle : c.Idle) (frame : YamuxFrame) :
    Accounted c (c.account frame).1 frame ∧ (c.account frame).2 = [] := by
  obtain ⟨flags, id, inner⟩ := frame
  cases inner with
  | data data =>
    cases found : c.stream id with
    | none =>
      simp only [account, found]
      exact ⟨⟨rfl, rfl, rfl, rfl, idle, by simp [isWindowUpdate], fun h => absurd found h,
        fun _ => rfl, nofun⟩, trivial⟩
    | some stream =>
      simp only [account, found]
      refine ⟨⟨rfl, rfl, rfl, rfl, idle.setStream (idle _ stream found), ?_, by simp, fun _ => rfl, nofun⟩,
        trivial⟩
      rw [size_setStream_of_found (by simp [found])]
      simp [isWindowUpdate]
  | windowUpdate difference =>
    have pending : ((c.stream id).getD accepted).pending = [] := by
      cases found : c.stream id with
      | none => rfl
      | some stream => exact idle _ stream found
    obtain ⟨idle', freed⟩ := credit_of_idle pending difference
    refine ⟨⟨rfl, rfl, rfl, rfl, idle.setStream idle', ?_, by simp [account], fun _ => rfl, nofun⟩, freed⟩
    simp [account, size_setStream, isWindowUpdate, and_true]
  | ping value =>
    exact ⟨⟨rfl, rfl, rfl, rfl, idle, by simp [account, isWindowUpdate], fun h => h,
      fun _ => rfl, nofun⟩, rfl⟩
  | goAway res =>
    exact ⟨⟨rfl, rfl, rfl, rfl, idle, by simp [isWindowUpdate]; rfl, fun h => h, nofun, fun _ => rfl⟩, rfl⟩

/-! ## Answers -/

theorem replies_eq (found : c.stream frame.streamId = some stream) (peer : c.peerId = true)
    (noRst : frame.flags.RST = false) :
    ∃ rest, c.replies frame [] = c.openReplies frame ++ rest ∧ ∀ d ∈ rest, Light frame.streamId d := by
  simp only [replies, found, peer, noRst, Bool.not_true, Bool.false_eq_true, if_false]
  refine ⟨_, rfl, ?_⟩
  split
  · intro d mem
    rcases mem_append.1 mem with mem | mem
    · rw [windowReplies] at mem
      split at mem
      · cases mem_singleton.1 mem
        exact ⟨rfl, rfl, rfl⟩
      · cases mem
    · cases mem_singleton.1 mem
      trivial
  · split
    · nofun
    · intro d mem
      cases mem_singleton.1 mem
      exact ⟨rfl, rfl, rfl⟩
  · nofun
  · nofun

/-- The answers close the stream that was opened, if there are too many. -/
theorem Ready.answer (grow : ℕ → ℕ → ℕ) (ready : Ready limit frame.streamId c) :
    Ready limit frame.streamId (c.perform grow (c.replies frame [])).1 ∧
      (c.perform grow (c.replies frame [])).1.streams =
        if c.peerId = true ∧ frame.flags.RST = false ∧ (frame.flags.SYN = true ∧ frame.streamId ≠ 0) ∧
          limit < c.incomingStreams then c.streams.remove frame.streamId else c.streams := by
  obtain ⟨stream, found⟩ := Option.ne_none_iff_exists'.1 ready.found
  by_cases reached : c.peerId = true ∧ frame.flags.RST = false
  · obtain ⟨peer, noRst⟩ := reached
    obtain ⟨rest, eq, light⟩ := replies_eq found peer noRst
    rw [eq, perform_append]
    by_cases closes : (frame.flags.SYN = true ∧ frame.streamId ≠ 0) ∧ limit < c.incomingStreams
    · have opening : c.openReplies frame =
          [.outgoingFrame ⟨{ YamuxFlags.empty with FIN := true }, frame.streamId, .data []⟩] := by
        simp [openReplies, closes.1, ready.limit, Limit.exceededBy, closes.2]
      obtain ⟨ready₁, streams₁⟩ := ready.outgoingFrame
        ⟨{ YamuxFlags.empty with FIN := true }, frame.streamId, .data []⟩ rfl rfl
      have closed : (c.perform grow (c.openReplies frame)).1 = (c.outgoingFrame
          ⟨{ YamuxFlags.empty with FIN := true }, frame.streamId, .data []⟩).1 := by
        simp [opening, Connection.perform, reducer_outgoingFrame ready.live]
      rw [if_pos ⟨peer, noRst, closes⟩, closed]
      obtain ⟨ready', streams'⟩ := ready₁.perform grow light
      exact ⟨ready', streams'.trans streams₁⟩
    · have opening : ∀ d ∈ c.openReplies frame, Light frame.streamId d := by
        rw [openReplies]
        split
        · next opens =>
          have within : ¬ limit < c.incomingStreams := fun lt => closes ⟨opens, lt⟩
          simp [ready.limit, Limit.exceededBy, within, Light]
        · exact forall_mem_nil _
      rw [if_neg fun all => closes all.2.2]
      obtain ⟨ready₁, streams₁⟩ := ready.perform grow opening
      obtain ⟨ready', streams'⟩ := ready₁.perform grow light
      exact ⟨ready', streams'.trans streams₁⟩
  · have light : ∀ d ∈ c.replies frame [], Light frame.streamId d := by
      cases peer : c.peerId with
      | false => simp [replies, found, peer]
      | true =>
        have rst : frame.flags.RST = true := by simpa [peer] using reached
        simp [replies, found, peer, rst, Light]
    rw [if_neg fun all => reached ⟨all.1, all.2.1⟩]
    exact ready.perform grow light

/-! ## One frame -/

structure Rest (limit : ℕ) (c : Connection) : Prop where
  empty : c.yamux.incoming = []
  limit : c.maxStreams = .some limit
  idle : c.Idle

theorem receiveFrame_spec (rest : Rest limit c) (live : c.yamux.terminated = none)
    (run : c.receiveFrame grow frame = .ok c') :
    Rest limit c' ∧ c'.size = c.size + (if c.Creates frame then 1 else 0) ∧
      c'.streams = if frame.flags.SYN = true ∧ frame.streamId ≠ 0 then
          if c.Answered frame ∧ limit < (c.handshake frame).incomingStreams then
            (c.streams.insert frame.streamId true).remove frame.streamId
          else c.streams.insert frame.streamId true
        else c.streams := by
  obtain ⟨accounted, freed⟩ := account_spec (handshake_idle rest.idle frame) frame
  have handled : c.handleFrame frame = (((c.handshake frame).account frame).1,
      ((c.handshake frame).account frame).1.replies frame []) := by
    rw [handleFrame, ← freed]
  have unchanged : (c.handshake frame).yamux.incoming = c.yamux.incoming ∧
      (c.handshake frame).yamux.terminated = c.yamux.terminated ∧
      (c.handshake frame).maxStreams = c.maxStreams ∧ (c.handshake frame).peerId = c.peerId := by
    unfold handshake
    cases frame.flags.SYN <;> cases frame.flags.ACK <;> exact ⟨rfl, rfl, rfl, rfl⟩
  generalize ((c.handshake frame).account frame).1 = c₁ at accounted handled
  have result : (c₁.perform grow (c₁.replies frame [])).1 = c' := by
    rw [receiveFrame, live, turn_incomingFrame live rest.empty, handled] at run
    exact Except.ok.inj run
  have size : c'.size = c.size + if c.Creates frame then 1 else 0 := by
    rw [← result, size_perform, accounted.size, handshake_size, handshake_stream_self]
    cases syn : frame.flags.SYN <;> cases ack : frame.flags.ACK <;> simp [Creates, syn, ack]
  have counted : c₁.incomingStreams = (c.handshake frame).incomingStreams := by
    rw [incomingStreams, incomingStreams, accounted.streams]
  have rest₁ : Rest limit c₁ :=
    ⟨accounted.incoming.trans (unchanged.1.trans rest.empty),
      accounted.limit.trans (unchanged.2.2.1.trans rest.limit), accounted.idle⟩
  have streams := accounted.streams.trans (handshake_streams c frame)
  cases goAway : frame.isGoAway with
  | true =>
    -- the session is over: no answer is sent
    rw [perform_terminated (accounted.ended goAway)] at result
    subst result
    refine ⟨rest₁, size, ?_⟩
    rw [streams]
    simp [Answered, goAway]
  | false =>
    have live₁ := (accounted.live goAway).trans (unchanged.2.1.trans live)
    by_cases found : c₁.stream frame.streamId = none
    · have noSyn : frame.flags.SYN ≠ true := fun syn =>
        accounted.found (by simp [handshake_stream_self, syn]) found
      have silent : c₁.replies frame [] = [] := by simp [replies, found]
      rw [silent] at result
      subst result
      refine ⟨rest₁, size, ?_⟩
      rw [if_neg fun opens => noSyn opens.1]
      exact streams.trans (if_neg fun opens => noSyn opens.1)
    · obtain ⟨ready, answered⟩ := Ready.answer grow
        ⟨live₁, rest₁.empty, rest₁.limit, rest₁.idle, found⟩
      rw [result] at ready answered
      refine ⟨⟨ready.empty, ready.limit, ready.idle⟩, size, ?_⟩
      rw [answered, streams, accounted.peerId]
      by_cases opens : frame.flags.SYN = true ∧ frame.streamId ≠ 0
      · simp only [opens, Answered, goAway]
        split <;> simp_all
      · simp [opens]

theorem countP_incoming (incoming? : Option Bool) (id : StreamId) :
    (incoming?.toList.map fun v => (id, v)).countP (fun e => e.2) =
      if incoming? = some true then 1 else 0 := by
  rcases incoming? with _ | _ | _ <;> rfl

theorem incomingStreams_receive (rest : Rest limit c) (live : c.yamux.terminated = none)
    (within : c.incomingStreams ≤ limit) (run : c.receiveFrame grow frame = .ok c') :
    c'.incomingStreams = c.incomingStreams +
      if c.Opens frame ∧ ¬ (c.Answered frame ∧ c.incomingStreams = limit) then 1 else 0 := by
  obtain ⟨-, -, streams⟩ := receiveFrame_spec rest live run
  by_cases opens : frame.flags.SYN = true ∧ frame.streamId ≠ 0
  · have handshake := handshake_streams c frame
    rw [if_pos opens] at handshake streams
    have inserted := c.streams.countP_insert (fun e => e.2) frame.streamId true
    have removed := (c.streams.insert frame.streamId true).countP_remove (fun e => e.2) frame.streamId
    rw [countP_incoming, Bool.toNat_true] at inserted
    rw [countP_incoming, OrdMap.get_insert, if_pos rfl, if_pos rfl] at removed
    have insertCount : (c.handshake frame).incomingStreams =
        (c.streams.insert frame.streamId true).entries.countP fun e => e.2 := by
      rw [incomingStreams, handshake]
    rw [incomingStreams] at within
    by_cases old : c.streams.get frame.streamId = some true
    · -- a stream of the peer is replaced
      rw [if_pos old] at inserted
      rw [if_neg fun both => both.1.2.2 old, incomingStreams, streams, if_neg fun both => by omega, incomingStreams]
      omega
    · rw [if_neg old] at inserted
      rw [incomingStreams, streams, insertCount, incomingStreams]
      by_cases answered : c.Answered frame ∧ c.incomingStreams = limit
      · have full : (c.streams.entries.countP fun e => e.2) = limit := answered.2
        rw [if_pos ⟨answered.1, by omega⟩, if_neg fun both => both.2 ⟨answered.1, full⟩]
        omega
      · rw [if_neg, if_pos ⟨⟨opens.1, opens.2, old⟩, answered⟩]
        · omega
        · rintro ⟨yes, lt⟩
          exact answered ⟨yes, le_antisymm within (by rw [incomingStreams]; omega)⟩
  · rw [if_neg opens] at streams
    rw [if_neg fun both => opens ⟨both.1.1, both.1.2.1⟩, incomingStreams, streams]
    rfl

theorem receiveFrame_terminated (ended : c.yamux.terminated.isSome = true) :
    c.receiveFrame grow frame = .ok c := by
  rw [receiveFrame, if_pos ended]

/-! ## All frames -/

/-- The bounds hold after every frame exactly if every frame is admissible. -/
theorem streams_bounded_iff (messageSizeLimit pendingOutgoingLimit : Limit) (limit : ℕ) (peerId : Bool)
    (frames : List YamuxFrame) :
    let start := { Connection.init messageSizeLimit pendingOutgoingLimit (.some limit) with peerId := peerId }
    (∀ before c, before <+: frames → before.foldlM (receiveFrame grow) start = .ok c → Bounded limit c) ↔
      ∀ before frame c c', before ++ [frame] <+: frames → before.foldlM (receiveFrame grow) start = .ok c →
        c.receiveFrame grow frame = .ok c' → Admissible limit c frame := by
  refine foldlM_good_iff (fun c => Rest limit c ∧ Bounded limit c) ?_ (fun c inv => inv.2) ?_
  · exact ⟨⟨rfl, rfl, fun id stream found => by cases found⟩, Nat.zero_le _, Nat.zero_le _⟩
  · intro before frame c c' _ _ run ⟨rest, bounded⟩
    cases ended : c.yamux.terminated.isSome with
    | true =>
      cases (receiveFrame_terminated ended).symm.trans run
      exact ⟨fun _ => ⟨rest, bounded⟩, fun _ live => by simp [live] at ended⟩
    | false =>
      have live : c.yamux.terminated = none := by simpa using ended
      obtain ⟨rest', size, -⟩ := receiveFrame_spec rest live run
      have count := incomingStreams_receive rest live bounded.incoming run
      have within := bounded.incoming
      have small := bounded.size
      constructor
      · intro admissible
        obtain ⟨creates, opens⟩ := admissible live
        refine ⟨rest', ?_, ?_⟩
        · rw [count]
          split
          · next both =>
            rcases opens both.1 with lt | answered
            · omega
            · have : c.incomingStreams ≠ limit := fun eq => both.2 ⟨answered, eq⟩
              omega
          · omega
        · rw [size]
          split
          · next new => exact Nat.succ_le_succ (creates new)
          · exact small
      · intro good _
        refine ⟨fun new => ?_, fun opens => ?_⟩
        · have := good.size
          rw [size, if_pos new] at this
          omega
        · refine or_iff_not_imp_right.2 fun unanswered => ?_
          have := good.incoming
          rw [count, if_pos ⟨opens, fun both => unanswered both.1⟩] at this
          omega

/-- Three window updates make three entries where two are allowed; a stream opened
by the frame that ends the session stays beyond the limit. -/
theorem streams_unbounded :
    (∃ c, [⟨.empty, 1, .windowUpdate 1⟩, ⟨.empty, 2, .windowUpdate 1⟩, ⟨.empty, 3, .windowUpdate 1⟩].foldlM
        (receiveFrame fun _ n => n) (.init .unlimited .unlimited (.some 1)) = .ok c ∧ c.size = 3) ∧
      ∃ c, [⟨{ YamuxFlags.empty with SYN := true }, 1, .data []⟩,
          ⟨{ YamuxFlags.empty with SYN := true }, 2, .goAway none⟩].foldlM
        (receiveFrame fun _ n => n) (.init .unlimited .unlimited (.some 1)) = .ok c ∧ c.incomingStreams = 2 :=
  ⟨⟨_, rfl, rfl⟩, ⟨_, rfl, rfl⟩⟩

end Connection

end MinaRust.Yamux
