/-
  The order of a stream's data on its way to the noise layer.

  A remainder goes to the front of the queue, and so does the remainder of what is submitted
  after it; so the order is kept as long as nothing is submitted while a remainder waits
  (`Calm`).  Then at most one frame waits, and only at an exhausted window (`Steady`).
-/
import MinaRust.Lib.Checked
import MinaRust.Yamux.Reducer

namespace MinaRust.Yamux

open List YamuxFrame Connection Dispatched YamuxStreamState

open YamuxStreamState

def payloads (frames : List YamuxFrame) : Data := frames.flatMap YamuxFrame.payload

@[simp] theorem payloads_nil : payloads [] = [] := rfl

@[simp] theorem payloads_cons (frame : YamuxFrame) (frames : List YamuxFrame) :
    payloads (frame :: frames) = frame.payload ++ payloads frames := rfl

@[simp] theorem payloads_append (xs ys : List YamuxFrame) : payloads (xs ++ ys) = payloads xs ++ payloads ys :=
  flatMap_append

/-! ## Runs of a stream -/

inductive StreamEvent where
  /-- `OutgoingData` with or without `FIN`. -/
  | submit (data : Data) (fin : Bool)
  /-- A received `WindowUpdate`. -/
  | credit (difference : U32) (flags : YamuxFlags)
  deriving DecidableEq, Repr

structure Line where
  conn : Connection
  submitted : Data
  emitted : List YamuxFrame
  credit : ℕ
  /-- `FIN` was submitted. -/
  closed : Bool

def Line.start (c : Connection) : Line := ⟨c, [], [], 0, false⟩

def Line.step (grow : ℕ → ℕ → ℕ) (id : StreamId) (l : Line) : StreamEvent → Except Unit Line
  | .submit data fin =>
    let (c, out) := l.conn.turn grow (.outgoingData id data { YamuxFlags.empty with FIN := fin })
    if overflow out then .error ()
    else .ok ⟨c, l.submitted ++ data, l.emitted ++ Dispatched.sent out, l.credit, l.closed || fin⟩
  | .credit difference flags =>
    let (c, out) := (l.conn.queue ⟨flags, id, .windowUpdate difference⟩).turn grow .incomingFrame
    if overflow out then .error ()
    else .ok ⟨c, l.submitted, l.emitted ++ Dispatched.sent out, l.credit + difference, l.closed⟩

structure Fresh (id : StreamId) (c : Connection) : Prop where
  live : c.yamux.terminated = none
  empty : c.yamux.incoming = []
  stream : ∃ stream, c.stream id = some stream ∧ stream.windowTheirs = INITIAL_WINDOW_SIZE ∧
    stream.pending = []

/-- Nothing follows `FIN`, data waits for remainders, and window updates only add credit. -/
def Calm (id : StreamId) (l : Line) (event : StreamEvent) : Prop :=
  ∀ stream, l.conn.stream id = some stream →
    match event with
    | .submit data fin => l.closed = false ∧ (stream.pending = [] ∨ data = [] ∧ fin = false)
    | .credit difference flags =>
      flags.SYN = false ∧ flags.RST = false ∧ l.conn.peerId = true ∧
        stream.windowTheirs + difference ≤ U32.MAX

/-! ## One step -/

structure Steady (id : StreamId) (l : Line) (stream : YamuxStreamState) : Prop where
  live : l.conn.yamux.terminated = none
  empty : l.conn.yamux.incoming = []
  found : l.conn.stream id = some stream
  kept : payloads l.emitted ++ payloads stream.pending = l.submitted
  waiting : stream.pending = [] ∨ ∃ flags data, stream.pending = [⟨flags, id, .data data⟩] ∧
    flags.FIN = l.closed ∧ stream.windowTheirs = 0
  credit : INITIAL_WINDOW_SIZE + l.credit ≤ stream.windowTheirs + (payloads l.emitted).length
  fin : ∀ before frame after, l.emitted = before ++ frame :: after → frame.flags.FIN = true →
    after = [] ∧ stream.pending = [] ∧ l.closed = true

namespace Connection

variable {grow : ℕ → ℕ → ℕ} {c c' : Connection} {id : StreamId} {stream : YamuxStreamState}

theorem outgoingFrame_data {flags : YamuxFlags} {data : Data} {ds : List Dispatched}
    (found : c.stream id = some stream) (run : c.outgoingFrame ⟨flags, id, .data data⟩ = (c', ds))
    (calm : overflow ds = false) :
    ∃ stream' sent, c'.stream id = some stream' ∧ c'.yamux.terminated = c.yamux.terminated ∧
      c'.yamux.incoming = c.yamux.incoming ∧ ds = [.noise sent] ∧
      (min data.length U32.MAX ≤ stream.windowTheirs ∧ sent = ⟨flags, id, .data data⟩ ∧
          stream'.windowTheirs = stream.windowTheirs - min data.length U32.MAX ∧
          stream'.pending = stream.pending ∨
        stream.windowTheirs < min data.length U32.MAX ∧
          sent = ⟨{ flags with FIN := false }, id, .data (data.take stream.windowTheirs)⟩ ∧
          stream'.windowTheirs = 0 ∧
          stream'.pending =
            ⟨{ flags with SYN := false, ACK := false }, id, .data (data.drop stream.windowTheirs)⟩ ::
              stream.pending) := by
  obtain ⟨charged', sent, charged, rfl, changed, live, empty⟩ := outgoingFrame_of_found found run calm
  refine ⟨charged'.noteFlags sent.flags, sent, (changed id).trans (if_pos rfl), live, empty, rfl, ?_⟩
  simp only [noteFlags_windowTheirs, noteFlags_pending]
  obtain ⟨fits, rfl, rfl⟩ | ⟨beyond, rfl, rfl⟩ := charge_data charged
  · exact .inl ⟨fits, rfl, rfl, rfl⟩
  · exact .inr ⟨beyond, rfl, rfl, rfl⟩

theorem handleFrame_windowUpdate {flags : YamuxFlags} (difference : U32) (found : c.stream id = some stream)
    (noSyn : flags.SYN = false) (noRst : flags.RST = false) (peer : c.peerId = true) :
    ∃ c' established, c.handleFrame ⟨flags, id, .windowUpdate difference⟩ =
        (c', ({ stream with established := established }.credit difference).2.map .outgoingFrame) ∧
      c'.stream id = some ({ stream with established := established }.credit difference).1 ∧
      c'.yamux.terminated = c.yamux.terminated ∧ c'.yamux.incoming = c.yamux.incoming := by
  cases ack : flags.ACK with
  | false =>
    refine ⟨c.setStream id (stream.credit difference).1, stream.established, ?_,
      stream_setStream_self .., rfl, rfl⟩
    have same : c.handshake ⟨flags, id, .windowUpdate difference⟩ = c := by
      simp [handshake, noSyn, ack]
    have known : (c.setStream id (stream.credit difference).1).peerId = true := peer
    simp [handleFrame, same, account, found, replies, known, noRst, openReplies, noSyn]
  | true =>
    have same : c.handshake ⟨flags, id, .windowUpdate difference⟩ =
        c.setStream id { stream with established := true } := by
      simp [handshake, noSyn, ack, found]
    refine ⟨(c.setStream id { stream with established := true }).setStream id
      ({ stream with established := true }.credit difference).1, true, ?_,
      stream_setStream_self .., rfl, rfl⟩
    have known (stream') : ((c.setStream id { stream with established := true }).setStream id
      stream').peerId = true := peer
    simp [handleFrame, same, account, replies, known, noRst, openReplies, noSyn]

end Connection

namespace Line

variable {grow : ℕ → ℕ → ℕ} {id : StreamId} {l l' : Line} {stream : YamuxStreamState}

variable {data : Data}

/-- A data frame is emitted from a stream on which nothing waits: whatever does not
fit waits alone, at an exhausted window. -/
theorem steady_send {c c' : Connection} {flags : YamuxFlags} {ds : List Dispatched} {emitted : List YamuxFrame}
    {submitted : Data} {credit : ℕ} {closed : Bool} (live : c.yamux.terminated = none)
    (empty : c.yamux.incoming = []) (found : c.stream id = some stream) (idle : stream.pending = [])
    (run : c.outgoingFrame ⟨flags, id, .data data⟩ = (c', ds)) (calm : overflow ds = false)
    (kept : payloads emitted ++ data = submitted)
    (enough : INITIAL_WINDOW_SIZE + credit ≤ stream.windowTheirs + (payloads emitted).length)
    (last : flags.FIN = closed) (noFin : ∀ frame ∈ emitted, frame.flags.FIN = false) :
    ∃ stream', Steady id ⟨c', submitted, emitted ++ Dispatched.sent ds, credit, closed⟩ stream' := by
  obtain ⟨stream', sent, found', live', empty', rfl, cases⟩ :=
    outgoingFrame_data found run calm
  -- the new frame is the only one that can carry `FIN`
  have split : ∀ {before frame after}, emitted ++ [sent] = before ++ frame :: after →
      frame.flags.FIN = true → after = [] ∧ frame = sent := by
    intro before frame after eq fin
    rcases eq_nil_or_concat after with rfl | ⟨after, x, rfl⟩
    · obtain ⟨-, eq⟩ := append_inj' eq rfl
      exact ⟨rfl, (List.cons.inj eq).1.symm⟩
    · have eq : emitted ++ [sent] = (before ++ frame :: after) ++ [x] := by simpa using eq
      have mem : frame ∈ emitted := by
        rw [(append_inj' eq rfl).1]
        simp
      exact absurd (noFin frame mem) (by simp [fin])
  obtain ⟨fits, rfl, window, pending⟩ | ⟨beyond, rfl, window, pending⟩ := cases
  · refine ⟨stream', live'.trans live, empty'.trans empty, found', ?_, .inl (pending.trans idle), ?_, ?_⟩
    · rw [pending, idle, ← kept]
      simp [Dispatched.sent, YamuxFrame.payload]
    · simp only [Dispatched.sent, filterMap_cons, filterMap_nil, payloads_append,
        payloads_cons, payloads_nil, append_nil, length_append, YamuxFrame.payload]
      omega
    · intro before frame after eq fin
      obtain ⟨rfl, rfl⟩ := split eq fin
      exact ⟨rfl, pending.trans idle, last.symm.trans fin⟩
  · refine ⟨stream', live'.trans live, empty'.trans empty, found', ?_,
      .inr ⟨{ flags with SYN := false, ACK := false }, data.drop stream.windowTheirs,
        by rw [pending, idle], last, window⟩, ?_, ?_⟩
    · rw [pending, idle, ← kept]
      simp [Dispatched.sent, YamuxFrame.payload]
    · simp only [Dispatched.sent, filterMap_cons, filterMap_nil, payloads_append,
        payloads_cons, payloads_nil, append_nil, length_append, YamuxFrame.payload,
        length_take]
      omega
    · intro before frame after eq fin
      obtain ⟨rfl, rfl⟩ := split eq fin
      cases fin

theorem noFin_of_steady (steady : Steady id l stream)
    (more : l.closed = false ∨ stream.pending ≠ []) : ∀ frame ∈ l.emitted, frame.flags.FIN = false := by
  intro frame mem
  obtain ⟨before, after, eq⟩ := append_of_mem mem
  refine Bool.eq_false_iff.2 fun fin => ?_
  obtain ⟨-, idle, closed⟩ := steady.fin before frame after eq fin
  rcases more with isOpen | waits
  · exact absurd closed (by simp [isOpen])
  · exact waits idle

theorem steady_submit {fin : Bool} (steady : Steady id l stream) (calm : Calm id l (.submit data fin))
    (run : l.step grow id (.submit data fin) = .ok l') : ∃ stream', Steady id l' stream' := by
  obtain ⟨isOpen, idle⟩ := calm stream steady.found
  have noFin := noFin_of_steady steady (.inl isOpen)
  rw [step, turn_outgoingData steady.live steady.found] at run
  obtain ⟨c, ds, sent⟩ : ∃ c ds, l.conn.outgoingFrame
    ⟨stream.outgoingFlags { YamuxFlags.empty with FIN := fin }, id, .data data⟩ = (c, ds) := ⟨_, _, rfl⟩
  simp only [sent, isOpen, Bool.false_or] at run
  split at run
  · cases run
  · next within =>
    cases run
    have within := Bool.eq_false_iff.2 within
    rcases idle with idle | ⟨rfl, rfl⟩
    · refine steady_send steady.live steady.empty steady.found idle sent within ?_ steady.credit
        (outgoingFlags_FIN ..) noFin
      rw [← steady.kept, idle, payloads_nil, append_nil]
    · -- nothing is sent but the empty frame, past what waits
      obtain ⟨stream', frame, found, live, empty, rfl, ⟨-, rfl, window, pending⟩ | ⟨beyond, -⟩⟩ :=
        outgoingFrame_data steady.found sent within
      · refine ⟨stream', live.trans steady.live, empty.trans steady.empty, found, ?_, ?_, ?_, ?_⟩
        · rw [pending, ← steady.kept]
          simp [Dispatched.sent, YamuxFrame.payload]
        · rw [pending, window]
          simpa [isOpen] using steady.waiting
        · rw [window]
          simpa [Dispatched.sent, YamuxFrame.payload] using steady.credit
        · intro before frame after eq fin
          have mem : frame ∈ before ++ frame :: after := by simp
          rw [← eq] at mem
          rcases mem_append.1 mem with mem | mem
          · exact absurd (noFin frame mem) (by simp [fin])
          · cases mem_singleton.1 mem
            exact absurd fin (by simp)
      · exact absurd beyond (by simp)

variable {difference : U32}

theorem credit_idle (stream : YamuxStreamState) (idle : stream.pending = [])
    (le : stream.windowTheirs + difference ≤ U32.MAX) :
    stream.credit difference = ({ stream with windowTheirs := stream.windowTheirs + difference }, []) := by
  simp [YamuxStreamState.credit, min_eq_left le, idle, drain]

/-- The one frame that waits is freed by any credit, whether or not it fits. -/
theorem credit_waiting (stream : YamuxStreamState) {frame : YamuxFrame} (waits : stream.pending = [frame])
    (pos : 0 < difference) (le : stream.windowTheirs + difference ≤ U32.MAX) :
    stream.credit difference =
      ({ stream with windowTheirs := stream.windowTheirs + difference, pending := [] }, [frame]) := by
  rw [YamuxStreamState.credit, min_eq_left le, waits, if_pos pos]
  simp only [drain]
  split <;> rfl

theorem credit_zero (stream : YamuxStreamState) (le : stream.windowTheirs ≤ U32.MAX) : stream.credit 0 = (stream, []) := by
  simp [YamuxStreamState.credit, min_eq_left le]

theorem steady_credit {flags : YamuxFlags} (steady : Steady id l stream)
    (calm : Calm id l (.credit difference flags)) (run : l.step grow id (.credit difference flags) = .ok l') :
    ∃ stream', Steady id l' stream' := by
  obtain ⟨noSyn, noRst, peer, le⟩ := calm stream steady.found
  obtain ⟨c, established, handled, found, live, empty⟩ :=
    Connection.handleFrame_windowUpdate difference steady.found noSyn noRst peer
  rw [step, turn_incomingFrame steady.live steady.empty, handled] at run
  have live := live.trans steady.live
  have empty := empty.trans steady.empty
  have enough := steady.credit
  rcases steady.waiting with idle | ⟨flags', data, waits, last, exhausted⟩
  · rw [credit_idle { stream with established := established } idle le] at run found
    cases run
    refine ⟨_, live, empty, found, ?_, .inl idle, ?_, ?_⟩
    · simpa [Dispatched.sent] using steady.kept
    · simp only [Dispatched.sent, filterMap_nil, append_nil]
      omega
    · simpa [Dispatched.sent, perform] using steady.fin
  · by_cases pos : 0 < difference
    · -- the queue is empty while the frame is on its way
      rw [credit_waiting { stream with established := established } waits pos le] at run found
      simp only [map_cons, map_nil, perform, reducer_outgoingFrame live, append_nil] at run
      split at run
      · cases run
      · next within =>
        cases run
        refine steady_send live empty found rfl rfl (Bool.eq_false_iff.2 within) ?_ ?_ last
          (noFin_of_steady steady (.inr (by simp [waits])))
        · rw [← steady.kept, waits]
          simp [YamuxFrame.payload]
        · dsimp only
          omega
    · obtain rfl : difference = 0 := by
        have : ¬ 0 < difference.val := pos
        simpa using this
      rw [credit_zero { stream with established := established } (by simpa using le)] at run found
      cases run
      refine ⟨_, live, empty, found, ?_, .inr ⟨flags', data, waits, last, exhausted⟩, ?_, ?_⟩
      · simpa [Dispatched.sent, perform] using steady.kept
      · simpa [Dispatched.sent, perform] using steady.credit
      · simpa [Dispatched.sent, perform] using steady.fin

/-! ## Runs -/

/-- In a calm run the data emitted is always a part of the data submitted from its
beginning, `FIN` comes behind all of it, and once the credit suffices all of it
has been emitted. -/
theorem emitted_in_order {c : Connection} (fresh : Fresh id c) (events : List StreamEvent)
    (calm : Along (step grow id) (Calm id) (start c) events)
    (run : events.foldlM (step grow id) (start c) = .ok l) :
    payloads l.emitted <+: l.submitted ∧
      (∀ before frame after, l.emitted = before ++ frame :: after → frame.flags.FIN = true →
        payloads (before ++ [frame]) = l.submitted) ∧
      (l.submitted.length ≤ INITIAL_WINDOW_SIZE + l.credit → payloads l.emitted = l.submitted) := by
  obtain ⟨stream₀, found, window, idle⟩ := fresh.stream
  have init : ∃ stream, Steady id (start c) stream :=
    ⟨stream₀, fresh.live, fresh.empty, found, by simp [start, idle], .inl idle,
      by simp [start, window], by simp [start]⟩
  have next : ∀ {l event l'}, (∃ stream, Steady id l stream) → Calm id l event →
      step grow id l event = .ok l' → ∃ stream, Steady id l' stream := by
    rintro l event l' ⟨stream, steady⟩ calm run
    cases event with
    | submit data fin => exact steady_submit steady calm run
    | credit difference flags => exact steady_credit steady calm run
  obtain ⟨stream, steady⟩ := calm.induction next init run
  have kept := steady.kept
  refine ⟨⟨_, kept⟩, fun before frame after eq fin => ?_, fun suffices_ => ?_⟩
  · obtain ⟨rfl, idle, -⟩ := steady.fin before frame after eq fin
    rw [← kept, idle, payloads_nil, append_nil, eq]
  · -- a frame that waits has used up the credit
    have enough := steady.credit
    rcases steady.waiting with idle | ⟨flags, data, waits, -, exhausted⟩
    · rw [← kept, idle, payloads_nil, append_nil]
    · rw [← kept, length_append] at suffices_
      have none : payloads stream.pending = [] := length_eq_zero_iff.1 (by omega)
      rw [← kept, none, append_nil]

def opened : Connection :=
  ((Connection.init (.some 0x10000000) .unlimited .unlimited).turn (fun _ n => n) (.openStream 1)).1

theorem emitted_in_order_three :
    ∃ l, [.submit [1, 2] false, .credit 3 .empty, .submit [4] true].foldlM (step (fun _ n => n) 1)
        (start opened) = .ok l ∧ payloads l.emitted = l.submitted := by
  have calm : Along (step (fun _ n => n) 1) (Calm 1) (start opened)
      [.submit [1, 2] false, .credit 3 .empty, .submit [4] true] := by
    refine ⟨?_, fun l run => ?_⟩
    · rintro _ ⟨⟩
      exact ⟨rfl, .inl rfl⟩
    cases run
    refine ⟨?_, fun l run => ?_⟩
    · rintro _ ⟨⟩
      exact ⟨rfl, rfl, rfl, by decide⟩
    cases run
    refine ⟨?_, fun l run => trivial⟩
    rintro _ ⟨⟩
    exact ⟨rfl, .inl rfl⟩
  exact ⟨_, rfl, (emitted_in_order ⟨rfl, rfl, _, rfl, rfl, rfl⟩ _ calm rfl).2.2 (by decide)⟩

theorem step_submit_eq {fin : Bool} {stream' : YamuxStreamState} {sent : YamuxFrame}
    (live : l.conn.yamux.terminated = none) (found : l.conn.stream id = some stream)
    (charged : stream.charge l.conn.yamux.pendingOutgoingLimit ⟨stream.outgoingFlags { YamuxFlags.empty with FIN := fin }, id, .data data⟩ = (stream', some sent)) :
    l.step grow id (.submit data fin) = .ok ⟨{ l.conn.setStream id (stream'.noteFlags sent.flags) with
          streams := if sent.flags.FIN then l.conn.streams.remove id else l.conn.streams },
        l.submitted ++ data, l.emitted ++ [sent], l.credit, l.closed || fin⟩ := by
  rw [step, turn_outgoingData live found, outgoingFrame_eq found charged]
  rfl

def oneWaits : YamuxStreamState :=
  { YamuxStreamState.default with windowTheirs := 0, pending := [⟨.empty, 1, .data [0]⟩] }

theorem charge_one_more {zeros : Data} (length : zeros.length = INITIAL_WINDOW_SIZE) :
    YamuxStreamState.default.charge .unlimited
        ⟨{ YamuxFlags.empty with SYN := true }, 1, .data (zeros ++ [0])⟩ =
      (oneWaits, some ⟨{ YamuxFlags.empty with SYN := true }, 1, .data zeros⟩) := by
  have cut : INITIAL_WINDOW_SIZE < min (zeros.length + 1) U32.MAX := by
    rw [length]
    decide
  have longer : ¬ zeros.length < INITIAL_WINDOW_SIZE := by omega
  simp [charge, YamuxFrame.lenAsU32, YamuxFrame.len, YamuxFrame.payload, YamuxFrame.splitAt,
    YamuxStreamState.default, oneWaits, Limit.exceededBy, YamuxFlags.empty, cut.not_ge, longer,
    take_left' length, drop_left' length]

/-- One byte more than the window, another byte, and credit for both: the last byte
is sent before the one that waited. -/
theorem emitted_reordered : ∃ (events : List StreamEvent) (l : Line),
      events.foldlM (step (fun _ n => n) 1) (start opened) = .ok l ∧
        l.submitted.length ≤ INITIAL_WINDOW_SIZE + l.credit ∧ ¬ payloads l.emitted <+: l.submitted := by
  obtain ⟨zeros, length⟩ : ∃ zeros : Data, zeros.length = INITIAL_WINDOW_SIZE :=
    ⟨List.replicate _ 0, length_replicate⟩
  have first : step (fun _ n => n) 1 (start opened) (.submit (zeros ++ [0]) false) = .ok _ :=
    step_submit_eq rfl rfl (charge_one_more length)
  have later (submitted : Data) (emitted : List YamuxFrame) : ∃ l,
      [.submit [1] false, .credit 2 .empty].foldlM (step (fun _ n => n) 1)
        ⟨opened.setStream 1 (oneWaits.noteFlags { YamuxFlags.empty with SYN := true }), submitted,
          emitted, 0, false⟩ = .ok l ∧
        l.submitted = submitted ++ [1] ∧ payloads l.emitted = payloads emitted ++ [1, 0] ∧ l.credit = 2 := by
    refine ⟨_, rfl, rfl, ?_, rfl⟩
    simp only [payloads_append, append_assoc]
    rfl
  obtain ⟨l, run, submitted, emitted, credit⟩ :=
    later (zeros ++ [0]) [⟨{ YamuxFlags.empty with SYN := true }, 1, .data zeros⟩]
  refine ⟨[.submit (zeros ++ [0]) false, .submit [1] false, .credit 2 .empty], l, ?_, ?_, ?_⟩
  · rw [foldlM_cons, first]
    exact run
  · simp [submitted, credit, length]
  · intro part
    rw [submitted, emitted, payloads_cons, payloads_nil, append_nil, append_assoc] at part
    exact absurd ((prefix_append_right_inj zeros).1 part) (by decide)

end Line

end MinaRust.Yamux
