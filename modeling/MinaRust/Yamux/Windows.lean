/-
  Flow control between two endpoints that both run this reducer.

  Everything an endpoint does keeps its `Books`, provided that a received `SYN` is the first
  frame of its stream.  What one endpoint of a `Net` has received is the beginning of what
  the other has sent, so the windows agree, unless `SYN` is sent twice: a stream whose first
  frame carries `FIN` is not marked as opened.
-/
import MinaRust.Lib.Checked
import MinaRust.Yamux.Reducer

namespace MinaRust.Yamux

open List Option Bool YamuxFrame Connection Dispatched

open YamuxStreamState

/-! ## Books of an endpoint -/

def YamuxFrame.grant (frame : YamuxFrame) : ℕ :=
  match frame.inner with
  | .windowUpdate difference => difference
  | _ => 0

def sumOn (f : YamuxFrame → ℕ) (id : StreamId) (frames : List YamuxFrame) : ℕ :=
  (frames.map fun frame => if frame.streamId = id then f frame else 0).sum

abbrev dataOn : StreamId → List YamuxFrame → ℕ := sumOn len

abbrev creditOn : StreamId → List YamuxFrame → ℕ := sumOn grant

section
variable (f : YamuxFrame → ℕ) (id : StreamId)

@[simp] theorem sumOn_nil : sumOn f id [] = 0 := rfl

@[simp] theorem sumOn_append (xs ys : List YamuxFrame) :
    sumOn f id (xs ++ ys) = sumOn f id xs + sumOn f id ys := by
  simp [sumOn]

theorem sumOn_singleton (frame : YamuxFrame) :
    sumOn f id [frame] = if frame.streamId = id then f frame else 0 := by
  simp [sumOn]

theorem sumOn_of_ne {frames : List YamuxFrame} (ne : ∀ frame ∈ frames, frame.streamId ≠ id) :
    sumOn f id frames = 0 := by
  induction frames with
  | nil => rfl
  | cons frame frames ih =>
    have first := ne frame mem_cons_self
    have rest := ih fun g mem => ne g (mem_cons_of_mem _ mem)
    simp only [sumOn, map_cons, sum_cons, if_neg first, Nat.zero_add]
    exact rest

end

/-- The state of a stream, or the one that it will be created with. -/
def Connection.peek (c : Connection) (id : StreamId) : YamuxStreamState := (c.stream id).getD .default

theorem Connection.peek_of_changed {c c' : Connection} {id : StreamId} {stream : YamuxStreamState}
    (changed : ∀ j, c'.stream j = if j = id then some stream else c.stream j) (j : StreamId) :
    c'.peek j = if j = id then stream else c.peek j := by
  rw [peek, changed]
  split <;> rfl

/-- A bound of our windows: credit is granted below half of the greatest maximum,
at most one mebibyte at a time. -/
def OURS_MAX : ℕ := MAX_WINDOW_SIZE / 2 + 1024 * 1024

def YamuxFrame.Plain (frame : YamuxFrame) : Prop :=
  match frame.inner with
  | .data _ | .windowUpdate _ => True
  | _ => False

structure Remainder (id : StreamId) (frame : YamuxFrame) : Prop where
  on : frame.streamId = id
  noSyn : frame.flags.SYN = false
  data : ∃ data, frame.inner = .data data

/-- `SYN` is the next to be sent. -/
structure Unopened (stream : YamuxStreamState) : Prop where
  incoming : stream.incoming = false
  established : stream.established = false
  synSent : stream.synSent = false

/-- The books of an endpoint that has sent `out` and received `inn`. -/
structure Books (c : Connection) (out inn : List YamuxFrame) : Prop where
  live : c.yamux.terminated = none
  empty : c.yamux.incoming = []
  theirs : ∀ id, (c.peek id).windowTheirs + dataOn id out = INITIAL_WINDOW_SIZE + creditOn id inn
  ours : ∀ id, (c.peek id).windowOurs + dataOn id inn = INITIAL_WINDOW_SIZE + creditOn id out
  theirs_lt : ∀ id, (c.peek id).windowTheirs < U32.MAX
  ours_le : ∀ id, (c.peek id).windowOurs ≤ OURS_MAX
  max_le : ∀ id, (c.peek id).maxWindowSize ≤ MAX_WINDOW_SIZE
  plain : ∀ frame ∈ out, frame.Plain
  /-- Without a stream, there has been no frame. -/
  quiet : ∀ id, c.stream id = none → ∀ frame ∈ out ++ inn, frame.streamId ≠ id
  unopened : ∀ id stream, c.stream id = some stream → (∀ frame ∈ out ++ inn, frame.streamId ≠ id) →
    Unopened stream
  pending : ∀ id stream, c.stream id = some stream → ∀ frame ∈ stream.pending, Remainder id frame
  /-- The first frame that we send on a stream opens it, unless the peer has sent on it. -/
  opening : ∀ id first, out.find? (fun frame => frame.streamId = id) = some first →
    first.flags.SYN = true ∨ ∃ frame ∈ inn, frame.streamId = id

namespace Books

variable {c c' : Connection} {out inn : List YamuxFrame} {id : StreamId}

theorem change (books : Books c out inn) (c' : Connection) (id : StreamId) (stream : YamuxStreamState)
    (sent received : List YamuxFrame) (changed : ∀ j, c'.stream j = if j = id then some stream else c.stream j)
    (live : c'.yamux.terminated = none) (empty : c'.yamux.incoming = [])
    (on : ∀ frame ∈ sent ++ received, frame.streamId = id)
    (theirs : stream.windowTheirs + dataOn id sent = (c.peek id).windowTheirs + creditOn id received)
    (ours : stream.windowOurs + dataOn id received = (c.peek id).windowOurs + creditOn id sent)
    (theirs_lt : stream.windowTheirs < U32.MAX) (ours_le : stream.windowOurs ≤ OURS_MAX)
    (max_le : stream.maxWindowSize ≤ MAX_WINDOW_SIZE) (plain : ∀ frame ∈ sent, frame.Plain)
    (unopened : (∀ frame ∈ (out ++ sent) ++ (inn ++ received), frame.streamId ≠ id) → Unopened stream)
    (pending : ∀ frame ∈ stream.pending, Remainder id frame)
    (opening : out.find? (fun frame => frame.streamId = id) = none → ∀ first ∈ sent.head?, first.flags.SYN = true ∨ ∃ frame ∈ inn, frame.streamId = id) :
    Books c' (out ++ sent) (inn ++ received) := by
  have peek := Connection.peek_of_changed changed
  have peek_self : c'.peek id = stream := (peek id).trans (if_pos rfl)
  have peek_ne {j} (ne : j ≠ id) : c'.peek j = c.peek j := (peek j).trans (if_neg ne)
  have sent_ne {f j} (ne : j ≠ id) : sumOn f j sent = 0 :=
    sumOn_of_ne f j fun frame mem => by rw [on frame (mem_append_left _ mem)]; exact ne.symm
  have received_ne {f j} (ne : j ≠ id) : sumOn f j received = 0 :=
    sumOn_of_ne f j fun frame mem => by rw [on frame (mem_append_right _ mem)]; exact ne.symm
  refine ⟨live, empty, fun j => ?_, fun j => ?_, fun j => ?_, fun j => ?_, fun j => ?_, ?_, ?_, ?_, ?_, ?_⟩
  iterate 2
    · have theirs₀ := books.theirs j
      have ours₀ := books.ours j
      by_cases eq : j = id
      · subst eq
        simp only [peek_self, dataOn, creditOn, sumOn_append] at theirs₀ ours₀ theirs ours ⊢
        omega
      · simp only [peek_ne eq, dataOn, creditOn, sumOn_append, sent_ne eq, received_ne eq] at theirs₀ ours₀ ⊢
        omega
  · by_cases eq : j = id
    · rwa [eq, peek_self]
    · exact peek_ne eq ▸ books.theirs_lt j
  · by_cases eq : j = id
    · rwa [eq, peek_self]
    · exact peek_ne eq ▸ books.ours_le j
  · by_cases eq : j = id
    · rwa [eq, peek_self]
    · exact peek_ne eq ▸ books.max_le j
  · intro frame mem
    exact (mem_append.1 mem).elim (books.plain frame) (plain frame)
  · intro j none frame mem
    have ne : j ≠ id := by
      rintro rfl
      simp [changed] at none
    rw [changed, if_neg ne] at none
    have quiet := books.quiet j none frame
    have here := on frame
    simp only [mem_append] at mem quiet here
    rintro rfl
    rcases mem with (mem | mem) | mem | mem
    · exact quiet (.inl mem) rfl
    · exact ne (here (.inl mem))
    · exact quiet (.inr mem) rfl
    · exact ne (here (.inr mem))
  · intro j stream' found none
    rw [changed] at found
    split at found
    · next eq =>
      cases found
      exact unopened (eq ▸ none)
    · refine books.unopened j stream' found fun frame mem => none frame ?_
      simp only [mem_append] at mem ⊢
      tauto
  · intro j stream' found
    rw [changed] at found
    split at found
    · next eq =>
      cases found
      exact eq ▸ pending
    · exact books.pending j stream' found
  · intro j first found
    rw [find?_append, or_eq_some_iff] at found
    rcases found with found | ⟨none, found⟩
    · obtain syn | ⟨frame, mem, eq⟩ := books.opening j first found
      · exact .inl syn
      · exact .inr ⟨frame, mem_append_left _ mem, eq⟩
    · obtain rfl : j = id := by
        have eq : first.streamId = j := by simpa using List.find?_some found
        rw [← eq]
        exact on first (mem_append_left _ (List.mem_of_find?_eq_some found))
      have head : first ∈ sent.head? := by
        cases sent with
        | nil => cases found
        | cons frame frames =>
          rw [find?_cons_of_pos (by simpa using on frame (by simp))] at found
          simpa using found
      obtain syn | ⟨frame, mem, eq⟩ := opening none first head
      · exact .inl syn
      · exact .inr ⟨frame, mem_append_left _ mem, eq⟩

theorem init (unused : ∀ id, c.stream id = none) (live : c.yamux.terminated = none)
    (empty : c.yamux.incoming = []) : Books c [] [] := by
  have peek (id) : c.peek id = .default := by simp [peek, unused]
  refine ⟨live, empty, fun id => ?_, fun id => ?_, fun id => ?_, fun id => ?_, fun id => ?_, nofun, nofun,
    fun id stream found => ?_, fun id stream found => ?_, nofun⟩
  · rw [peek]
    rfl
  · rw [peek]
    rfl
  · rw [peek]
    decide
  · rw [peek]
    decide
  · rw [peek]
    decide
  · simp [unused] at found
  · simp [unused] at found

theorem openStream (books : Books c out inn) (fresh : c.stream id = none) (streams : OrdMap StreamId Bool) :
    Books { c.setStream id .default with streams := streams } out inn := by
  have peek : c.peek id = .default := by simp [peek, fresh]
  have opened := books.change { c.setStream id .default with streams := streams } id .default [] []
    (fun j => stream_setStream c id j .default) books.live books.empty nofun
    (by rw [peek]; rfl) (by rw [peek]; rfl) (by decide) (by decide) (by decide) nofun
    (fun _ => ⟨rfl, rfl, rfl⟩) nofun nofun
  simpa using opened

/-! ### Sending -/

structure Only (id : StreamId) (c c' : Connection) : Prop where
  others : ∀ j, j ≠ id → c'.stream j = c.stream j
  found : c'.stream id ≠ none

theorem Only.trans {c₁ c₂ c₃ : Connection} (first : Only id c₁ c₂) (second : Only id c₂ c₃) : Only id c₁ c₃ :=
  ⟨fun j ne => (second.others j ne).trans (first.others j ne), second.found⟩

def Level (c c' : Connection) : Prop :=
  ∀ j, (c'.peek j).windowOurs = (c.peek j).windowOurs ∧ (c'.peek j).maxWindowSize = (c.peek j).maxWindowSize

variable {ds : List Dispatched}

theorem sendData (books : Books c out inn) {stream : YamuxStreamState} {flags : YamuxFlags} {data : Data}
    (found : c.stream id = some stream) (run : c.outgoingFrame ⟨flags, id, .data data⟩ = (c', ds))
    (calm : overflow ds = false)
    (opening : out.find? (fun frame => frame.streamId = id) = none → flags.SYN = true ∨ ∃ frame ∈ inn, frame.streamId = id) :
    ∃ sent : YamuxFrame, ds = [.noise sent] ∧ sent.streamId = id ∧ sent.flags.SYN = flags.SYN ∧
      Books c' (out ++ [sent]) inn ∧ Only id c c' ∧ Level c c' := by
  obtain ⟨stream', sent, charged, rfl, changed, live, empty⟩ :=
    outgoingFrame_of_found found run calm
  have peek : c.peek id = stream := by simp [peek, found]
  have window := books.theirs_lt id
  rw [peek] at window
  -- what is sent is at most the window, whose rest is left
  obtain ⟨on, syn, plain, theirs, ours, max, pending⟩ :
      sent.streamId = id ∧ sent.flags.SYN = flags.SYN ∧ sent.Plain ∧
      stream'.windowTheirs + sent.len = stream.windowTheirs ∧
      (sent.grant = 0 ∧ stream'.windowOurs = stream.windowOurs) ∧
      stream'.maxWindowSize = stream.maxWindowSize ∧
      ∀ frame ∈ stream'.pending, Remainder id frame := by
    have before := books.pending id stream found
    obtain ⟨fits, rfl, rfl⟩ | ⟨beyond, rfl, rfl⟩ := charge_data charged
    · refine ⟨rfl, rfl, trivial, ?_, ⟨rfl, rfl⟩, rfl, before⟩
      simp only [len, payload]
      omega
    · refine ⟨rfl, rfl, trivial, ?_, ⟨rfl, rfl⟩, rfl, ?_⟩
      · simp only [len, payload, length_take]
        omega
      · rintro frame mem
        rcases mem_cons.1 mem with rfl | mem
        · exact ⟨rfl, rfl, _, rfl⟩
        · exact before frame mem
  refine ⟨sent, rfl, on, syn, ?_, ⟨fun j ne => (changed j).trans (if_neg ne), ?_⟩, fun j => ?_⟩
  · have booked := books.change c' id (stream'.noteFlags sent.flags) [sent] [] changed
      (live.trans books.live) (empty.trans books.empty) (by simpa using on)
      (by simp [peek, dataOn, creditOn, sumOn_singleton, on, theirs])
      (by simp [peek, dataOn, creditOn, sumOn_singleton, on, ours])
      (by rw [noteFlags_windowTheirs]; omega)
      (by rw [noteFlags_windowOurs, ours.2, ← peek]; exact books.ours_le id)
      (by rw [noteFlags_maxWindowSize, max, ← peek]; exact books.max_le id)
      (by simpa using plain) (fun other => absurd on (other sent (by simp)))
      (by rw [noteFlags_pending]; exact pending)
      (fun none first mem => by
        cases mem_some.1 mem
        rw [syn]
        exact opening none)
    simpa using booked
  · exact fun none => by simpa using (changed id).symm.trans none
  · rw [peek_of_changed changed]
    split
    · next eq => simp [eq, peek, ours.2, max]
    · exact ⟨rfl, rfl⟩

theorem sendCredit (books : Books c out inn) {flags : YamuxFlags} {difference : U32}
    (found : c.stream id ≠ none) (noSyn : flags.SYN = false)
    (run : c.outgoingFrame ⟨flags, id, .windowUpdate difference⟩ = (c', ds))
    (room : (c.peek id).windowOurs + difference ≤ OURS_MAX) (opening : ∃ frame ∈ inn, frame.streamId = id) :
    Books c' (out ++ Dispatched.sent ds) inn ∧
      (∀ frame ∈ Dispatched.sent ds, frame.streamId = id ∧ frame.flags.SYN = false) ∧ Only id c c' := by
  obtain ⟨stream, found⟩ := ne_none_iff_exists'.1 found
  have peek : c.peek id = stream := by simp [peek, found]
  rw [peek] at room
  have small : stream.windowOurs + difference ≤ U32.MAX := room.trans (by decide)
  obtain ⟨stream', sent, charged, rfl, changed, live, empty⟩ :=
    outgoingFrame_of_found found run (by
      rw [outgoingFrame_eq found rfl] at run
      cases run
      rfl)
  cases charged
  refine ⟨?_, by simpa [Dispatched.sent] using noSyn, fun j ne => (changed j).trans (if_neg ne), ?_⟩
  · have booked := books.change c' id _ [⟨flags, id, .windowUpdate difference⟩] [] changed
      (live.trans books.live) (empty.trans books.empty) (by simp)
      (by simp [peek, dataOn, creditOn, sumOn_singleton, len, payload])
      (by simp [peek, dataOn, creditOn, sumOn_singleton, grant, small])
      (by simpa [charge, peek] using books.theirs_lt id)
      (by simpa [charge, small] using room)
      (by
        have before := peek ▸ books.max_le id
        simp only [noteFlags_maxWindowSize]
        split
        · exact min_le_right ..
        · exact before)
      (by simp [YamuxFrame.Plain]) (fun other => absurd rfl (other ⟨flags, id, .windowUpdate difference⟩ (by simp)))
      (by simpa [charge] using books.pending id stream found) (fun _ _ _ => .inr opening)
    simpa [Dispatched.sent] using booked
  · exact fun none => by simpa using (changed id).symm.trans none

/-! ### Replies -/

/-- A dispatched action that sends nothing, or data without `SYN` on the stream. -/
def Mild (id : StreamId) : Dispatched → Prop
  | .outgoingFrame frame => Remainder id frame
  | .noise _ => False
  | _ => True

variable {grow : ℕ → ℕ → ℕ}

theorem performMild (books : Books c out inn) {out' : List Dispatched} (mild : ∀ d ∈ ds, Mild id d)
    (found : c.stream id ≠ none) (opening : ∃ frame ∈ inn, frame.streamId = id)
    (run : c.perform grow ds = (c', out')) (calm : overflow out' = false) :
    Books c' (out ++ Dispatched.sent out') inn ∧
      (∀ frame ∈ Dispatched.sent out', frame.streamId = id ∧ frame.flags.SYN = false) ∧
      Only id c c' ∧ Level c c' := by
  induction ds generalizing c out out' with
  | nil =>
    cases run
    exact ⟨by simpa [Dispatched.sent] using books, by simp [Dispatched.sent], ⟨fun _ _ => rfl, found⟩,
      fun _ => ⟨rfl, rfl⟩⟩
  | cons d ds ih =>
    have here := mild d mem_cons_self
    have rest := fun d mem => mild d (mem_cons_of_mem _ mem)
    by_cases sends : ∃ frame, d = .outgoingFrame frame
    · obtain ⟨⟨flags, id', inner⟩, rfl⟩ := sends
      obtain ⟨rfl, noSyn, data, rfl⟩ := here
      obtain ⟨stream, found⟩ := ne_none_iff_exists'.1 found
      obtain ⟨c₁, ds₁, first⟩ : ∃ c₁ ds₁, c.outgoingFrame ⟨flags, id', .data data⟩ = (c₁, ds₁) :=
        ⟨_, _, rfl⟩
      simp only [perform, reducer_outgoingFrame books.live, first] at run
      obtain ⟨rfl, rfl⟩ := Prod.mk.inj run
      rw [overflow_append, or_eq_false_iff] at calm
      obtain ⟨sent, rfl, on, syn, books, only, level⟩ :=
        books.sendData found first calm.1 fun _ => .inr opening
      obtain ⟨books, plain, only', level'⟩ := ih books rest only.found rfl calm.2
      refine ⟨by simpa [Dispatched.sent] using books, ?_, only.trans only', fun j => ?_⟩
      · intro frame mem
        rcases mem_cons.1 mem with rfl | mem
        · exact ⟨on, syn.trans noSyn⟩
        · exact plain frame mem
      · exact ⟨(level' j).1.trans (level j).1, (level' j).2.trans (level j).2⟩
    · have pass : c.perform grow (d :: ds) = ((c.perform grow ds).1, d :: (c.perform grow ds).2) := by
        cases d with
        | outgoingFrame frame => exact absurd ⟨frame, rfl⟩ sends
        | _ => rfl
      have unsent : Dispatched.sent (d :: (c.perform grow ds).2) =
          Dispatched.sent (c.perform grow ds).2 := by
        cases d with
        | noise => cases here
        | _ => rfl
      rw [pass] at run
      obtain ⟨rfl, rfl⟩ := Prod.mk.inj run
      rw [unsent]
      exact ih books rest found rfl ((or_eq_false_iff.1 calm).2)

/-! ### Receiving -/

variable {frame : YamuxFrame}

/-- The first frame of a stream creates it with the initial windows; a later one
leaves the windows as they are. -/
theorem handshake_stream (known : c.stream frame.streamId ≠ none ∨ frame.flags.SYN = true)
    (first : frame.flags.SYN = true → c.stream frame.streamId = none) :
    ∃ stream, (∀ j, (c.handshake frame).stream j = if j = frame.streamId then some stream else c.stream j) ∧
      stream.windowTheirs = (c.peek frame.streamId).windowTheirs ∧
      stream.windowOurs = (c.peek frame.streamId).windowOurs ∧
      stream.maxWindowSize = (c.peek frame.streamId).maxWindowSize ∧
      stream.pending = (c.peek frame.streamId).pending ∧
      (c.handshake frame).yamux.terminated = c.yamux.terminated ∧
      (c.handshake frame).yamux.incoming = c.yamux.incoming := by
  cases syn : frame.flags.SYN with
  | true =>
    have peek : c.peek frame.streamId = .default := by simp [peek, first syn]
    rw [peek]
    have opened (j) : Connection.stream { c.setStream frame.streamId accepted with
        streams := if frame.streamId ≠ 0 then c.streams.insert frame.streamId true else c.streams } j =
        if j = frame.streamId then some accepted else c.stream j := stream_setStream ..
    cases ack : frame.flags.ACK with
    | true =>
      have eq : c.handshake frame = Connection.setStream { c.setStream frame.streamId accepted with
          streams := if frame.streamId ≠ 0 then c.streams.insert frame.streamId true else c.streams }
          frame.streamId { accepted with established := true } := by
        simp only [handshake, syn, ack, if_true, opened, getD_some]
      rw [eq]
      refine ⟨{ accepted with established := true }, fun j => ?_, rfl, rfl, rfl, rfl, rfl, rfl⟩
      rw [stream_setStream, opened]
      split <;> rfl
    | false =>
      have eq : c.handshake frame = { c.setStream frame.streamId accepted with
          streams := if frame.streamId ≠ 0 then c.streams.insert frame.streamId true else c.streams } := by
        simp [handshake, syn, ack, false_eq_true]
      rw [eq]
      exact ⟨accepted, opened, rfl, rfl, rfl, rfl, rfl, rfl⟩
  | false =>
    obtain ⟨stream, found⟩ := ne_none_iff_exists'.1 (known.resolve_right (by simp [syn]))
    have peek : c.peek frame.streamId = stream := by simp [peek, found]
    rw [peek]
    cases ack : frame.flags.ACK with
    | true =>
      have eq : c.handshake frame = c.setStream frame.streamId { stream with established := true } := by
        simp [handshake, syn, ack, found]
      rw [eq]
      exact ⟨_, fun j => stream_setStream .., rfl, rfl, rfl, rfl, rfl, rfl⟩
    | false =>
      have eq : c.handshake frame = c := by simp [handshake, syn, ack]
      rw [eq]
      refine ⟨stream, fun j => ?_, rfl, rfl, rfl, rfl, rfl, rfl⟩
      split
      · next here => rw [here, found]
      · rfl

theorem drain_append (window : ℕ) (pending : List YamuxFrame) :
    (drain window pending).1 ++ (drain window pending).2 = pending := by
  induction pending generalizing window with
  | nil => rfl
  | cons frame pending ih =>
    rw [drain]
    split
    · simp [ih]
    · rfl

theorem credit_spec (stream : YamuxStreamState) {difference : U32}
    (le : stream.windowTheirs + difference ≤ U32.MAX) :
    (stream.credit difference).1.windowTheirs = stream.windowTheirs + difference ∧
      (stream.credit difference).1.windowOurs = stream.windowOurs ∧
      (stream.credit difference).1.maxWindowSize = stream.maxWindowSize ∧
      (stream.credit difference).2 ++ (stream.credit difference).1.pending = stream.pending := by
  rw [credit, min_eq_left le]
  split
  · exact ⟨rfl, rfl, rfl, drain_append ..⟩
  · exact ⟨rfl, rfl, rfl, rfl⟩

variable {freed : List YamuxFrame}

theorem receive (books : Books c out inn) (plain : frame.Plain)
    (known : c.stream frame.streamId ≠ none ∨ frame.flags.SYN = true)
    (first : frame.flags.SYN = true → c.stream frame.streamId = none)
    (fits : frame.len ≤ (c.peek frame.streamId).windowOurs)
    (room : (c.peek frame.streamId).windowTheirs + frame.grant < U32.MAX)
    (run : (c.handshake frame).account frame = (c', freed)) :
    Books c' out (inn ++ [frame]) ∧ Only frame.streamId c c' ∧
      ∀ rest ∈ freed, Remainder frame.streamId rest := by
  obtain ⟨stream, opened, theirs, ours, max, pending, live, empty⟩ := handshake_stream known first
  have found : (c.handshake frame).stream frame.streamId = some stream := (opened _).trans (if_pos rfl)
  have remainders : ∀ rest ∈ stream.pending, Remainder frame.streamId rest := by
    rw [pending]
    cases here : c.stream frame.streamId with
    | none => simp [peek, here, YamuxStreamState.default]
    | some stream₀ =>
      simp only [peek, here, getD_some]
      exact books.pending _ stream₀ here
  have within := books.ours_le frame.streamId
  have changed (stream') (j) : ((c.handshake frame).setStream frame.streamId stream').stream j =
      if j = frame.streamId then some stream' else c.stream j := by
    rw [stream_setStream, opened]
    split <;> rfl
  -- the stream is set; the rest is the arithmetic of the windows
  have booked (stream' : YamuxStreamState)
      (theirs' : stream'.windowTheirs = stream.windowTheirs + frame.grant)
      (ours' : stream'.windowOurs + frame.len = stream.windowOurs)
      (max' : stream'.maxWindowSize = stream.maxWindowSize)
      (pending' : ∀ rest ∈ stream'.pending, Remainder frame.streamId rest) :
      Books ((c.handshake frame).setStream frame.streamId stream') out (inn ++ [frame]) ∧
        Only frame.streamId c ((c.handshake frame).setStream frame.streamId stream') := by
    refine ⟨?_, fun j ne => (changed stream' j).trans (if_neg ne), by simp⟩
    have booked := books.change _ frame.streamId stream' [] [frame] (changed stream')
      (live.trans books.live) (empty.trans books.empty) (by simp)
      (by simp only [dataOn, creditOn, sumOn_nil, sumOn_singleton, if_true]; omega)
      (by simp only [dataOn, creditOn, sumOn_nil, sumOn_singleton, if_true]; omega)
      (by omega) (by omega) (by rw [max', max]; exact books.max_le _) nofun
      (fun other => absurd rfl (other frame (by simp))) pending' nofun
    simpa using booked
  rw [← theirs] at room
  cases inner : frame.inner with
  | data data =>
    have short : frame.lenAsU32 = frame.len := min_eq_left (fits.trans (within.trans (by decide)))
    simp only [account, inner, found] at run
    cases run
    obtain ⟨books', only⟩ := booked { stream with windowOurs := stream.windowOurs - frame.lenAsU32 }
      (by simp [grant, inner])
      (by
        dsimp only
        omega)
      rfl remainders
    exact ⟨books', only, nofun⟩
  | windowUpdate difference =>
    have none : frame.len = 0 := by simp [len, payload, inner]
    have grant : frame.grant = difference := by simp [grant, inner]
    obtain ⟨theirs', ours', max', split⟩ := credit_spec stream (grant ▸ room.le)
    simp only [account, inner, found, getD_some] at run
    cases run
    obtain ⟨books', only⟩ := booked (stream.credit difference).1 (grant ▸ theirs')
      (by rw [ours', none, Nat.add_zero]) max'
      fun rest mem => remainders rest (split ▸ mem_append_right _ mem)
    exact ⟨books', only, fun rest mem => remainders rest (split ▸ mem_append_left _ mem)⟩
  | ping value | goAway res => simp [YamuxFrame.Plain, inner] at plain

/-- The replies to a frame are mild but for at most one grant of credit, for which
our window has room. -/
theorem replies_spec (books : Books c out inn) (plain : frame.Plain)
    (remainders : ∀ rest ∈ freed, Remainder frame.streamId rest) :
    (∀ d ∈ c.replies frame freed, Mild frame.streamId d) ∨
      ∃ (before : List Dispatched) (difference : U32) (after : List Dispatched), c.replies frame freed =
          before ++ .outgoingFrame ⟨.empty, frame.streamId, .windowUpdate difference⟩ :: after ∧
        (∀ d ∈ before, Mild frame.streamId d) ∧ (∀ d ∈ after, Mild frame.streamId d) ∧
        (c.peek frame.streamId).windowOurs + difference ≤ OURS_MAX := by
  have opening : ∀ d ∈ c.openReplies frame, Mild frame.streamId d := by
    rw [openReplies]
    split
    · split
      · simpa [Mild] using ⟨rfl, rfl, _, rfl⟩
      · simp [Mild]
    · nofun
  unfold replies
  split
  · exact .inl nofun
  · next stream found =>
    have peek : c.peek frame.streamId = stream := by simp [peek, found]
    split
    · exact .inl nofun
    split
    · exact .inl (by simp [Mild])
    split
    · next data _ =>
      rw [windowReplies]
      split
      · next low =>
        -- below half of the maximum, at most a mebibyte is granted
        refine .inr ⟨c.openReplies frame, _, [.selectIncomingData frame.streamId data frame.flags.FIN], rfl,
          opening, by simp [Mild], ?_⟩
        have max := books.max_le frame.streamId
        rw [peek] at max ⊢
        have grant : (Fin.ofNat 4294967296
            (min (min (stream.maxWindowSize * 2) U32.MAX) (1024 * 1024))).val ≤ 1024 * 1024 :=
          (Nat.mod_le ..).trans (min_le_right ..)
        have half : stream.maxWindowSize / 2 ≤ MAX_WINDOW_SIZE / 2 := Nat.div_le_div_right max
        calc stream.windowOurs + _ ≤ MAX_WINDOW_SIZE / 2 + 1024 * 1024 :=
              Nat.add_le_add (low.le.trans half) grant
          _ = OURS_MAX := rfl
      · refine .inl fun d mem => ?_
        rcases mem_append.1 mem with mem | mem
        · exact opening d mem
        · cases mem_singleton.1 mem
          trivial
    · next eq => simp [YamuxFrame.Plain, eq] at plain
    · refine .inl fun d mem => ?_
      rcases mem_append.1 mem with mem | mem
      · exact opening d mem
      · obtain ⟨rest, inFreed, rfl⟩ := mem_map.1 mem
        exact remainders rest inFreed
    · next eq => simp [YamuxFrame.Plain, eq] at plain

theorem receiveTurn (books : Books c out inn) (plain : frame.Plain)
    (known : c.stream frame.streamId ≠ none ∨ frame.flags.SYN = true)
    (first : frame.flags.SYN = true → c.stream frame.streamId = none)
    (fits : frame.len ≤ (c.peek frame.streamId).windowOurs)
    (room : (c.peek frame.streamId).windowTheirs + frame.grant < U32.MAX)
    (run : (c.queue frame).turn grow .incomingFrame = (c', ds)) (calm : overflow ds = false) :
    Books c' (out ++ Dispatched.sent ds) (inn ++ [frame]) ∧
      (∀ sent ∈ Dispatched.sent ds, sent.streamId = frame.streamId ∧ sent.flags.SYN = false) ∧
      Only frame.streamId c c' := by
  obtain ⟨c₁, freed, accounted⟩ : ∃ c₁ freed, (c.handshake frame).account frame = (c₁, freed) := ⟨_, _, rfl⟩
  obtain ⟨books₁, only₁, remainders⟩ := books.receive plain known first fits room accounted
  have opening : ∃ g ∈ inn ++ [frame], g.streamId = frame.streamId := ⟨frame, by simp, rfl⟩
  rw [turn_incomingFrame books.live books.empty, handleFrame, accounted] at run
  dsimp only at run
  obtain mild | ⟨before, difference, after, replies, mild, mild', room⟩ :=
    books₁.replies_spec plain remainders
  · obtain ⟨books', sent, only, -⟩ := books₁.performMild mild only₁.found opening run calm
    exact ⟨books', sent, only₁.trans only⟩
  · -- the credit is granted between two parts that are mild
    obtain ⟨c₂, ds₂, run₂⟩ : ∃ c₂ ds₂, c₁.perform grow before = (c₂, ds₂) := ⟨_, _, rfl⟩
    obtain ⟨c₃, ds₃, run₃⟩ : ∃ c₃ ds₃,
      c₂.outgoingFrame ⟨.empty, frame.streamId, .windowUpdate difference⟩ = (c₃, ds₃) := ⟨_, _, rfl⟩
    rw [replies, perform_append, run₂] at run
    obtain ⟨rfl, rfl⟩ := Prod.mk.inj run
    rw [overflow_append, or_eq_false_iff] at calm
    obtain ⟨calm₂, calm⟩ := calm
    obtain ⟨books₂, sent₂, only₂, level⟩ := books₁.performMild mild only₁.found opening run₂ calm₂
    obtain ⟨books₃, sent₃, only₃⟩ := books₂.sendCredit only₂.found rfl run₃
      (by rw [(level _).1]; exact room) opening
    simp only [perform, reducer_outgoingFrame books₂.live, run₃, overflow_append, or_eq_false_iff] at calm ⊢
    obtain ⟨books₄, sent₄, only₄, -⟩ := books₃.performMild mild' only₃.found opening rfl calm.2
    refine ⟨by simpa using books₄, fun sent mem => ?_, ((only₁.trans only₂).trans only₃).trans only₄⟩
    simp only [sent_append, mem_append] at mem
    rcases mem with mem | mem | mem
    · exact sent₂ sent mem
    · exact sent₃ sent mem
    · exact sent₄ sent mem

end Books

/-! ## Two endpoints -/

/-- Both endpoints, what each has sent, and how much of it has arrived at the other. -/
structure Net where
  conn : Bool → Connection
  sent : Bool → List YamuxFrame
  arrived : Bool → ℕ

namespace Net

def inFlight (net : Net) (side : Bool) : List YamuxFrame := (net.sent side).drop (net.arrived side)

def received (net : Net) (side : Bool) : List YamuxFrame := (net.sent side).take (net.arrived side)

inductive Event where
  | openStream (side : Bool) (id : StreamId)
  | outgoingData (side : Bool) (id : StreamId) (data : Data) (flags : YamuxFlags)
  /-- The next frame arrives at `side`. -/
  | deliver (side : Bool)
  deriving DecidableEq, Repr

variable (grow : ℕ → ℕ → ℕ)

/-- An endpoint has done something; an overflow closes the connection and ends the run. -/
def put (net : Net) (side : Bool) (r : Connection × List Dispatched) : Except Unit Net :=
  if overflow r.2 then .error ()
  else
    .ok { net with
      conn := Function.update net.conn side r.1
      sent := Function.update net.sent side (net.sent side ++ Dispatched.sent r.2) }

def step (net : Net) : Event → Except Unit Net
  | .openStream side id => net.put side ((net.conn side).turn grow (.openStream id))
  | .outgoingData side id data flags =>
    net.put side ((net.conn side).turn grow (.outgoingData id data flags))
  | .deliver side =>
    match net.inFlight (!side) with
    | [] => .ok net
    | frame :: _ =>
      { net with arrived := Function.update net.arrived (!side) (net.arrived (!side) + 1) }.put side
        (((net.conn side).queue frame).turn grow .incomingFrame)

/-- Stream ids are not reused, and a frame with `SYN` is the first of its stream. -/
def Proper (net : Net) : Event → Prop
  | .openStream _ id => ∀ side, (net.conn side).stream id = none
  | .outgoingData side id _ flags =>
    ∀ stream, (net.conn side).stream id = some stream → (stream.outgoingFlags flags).SYN = true →
      (net.conn (!side)).stream id = none ∧ ∀ frame ∈ net.inFlight side, frame.streamId ≠ id
  | .deliver _ => True

structure Init (net : Net) : Prop where
  unused : ∀ side id, (net.conn side).stream id = none
  live : ∀ side, (net.conn side).yamux.terminated = none
  empty : ∀ side, (net.conn side).yamux.incoming = []
  sent : ∀ side, net.sent side = []
  arrived : ∀ side, net.arrived side = 0

/-! ## Runs -/

/-- The books of both; a frame with `SYN` is the first of its stream, and the
stream is new to the endpoint that it is on its way to. -/
structure Sound (net : Net) : Prop where
  books : ∀ side, Books (net.conn side) (net.sent side) (net.received (!side))
  arrived_le : ∀ side, net.arrived side ≤ (net.sent side).length
  once : ∀ side, (net.sent side).Pairwise fun before frame =>
    frame.flags.SYN = true → before.streamId ≠ frame.streamId
  unopened : ∀ side, ∀ frame ∈ net.inFlight side, frame.flags.SYN = true →
    (net.conn (!side)).stream frame.streamId = none

theorem Init.sound {net : Net} (init : Init net) : Sound net where
  books side := by
    rw [init.sent, received, init.sent, take_nil]
    exact .init (init.unused side) (init.live side) (init.empty side)
  arrived_le side := by simp [init.arrived]
  once side := by simp [init.sent]
  unopened side := by simp [inFlight, init.sent]

variable {net net' : Net} {side : Bool}

theorem received_append_inFlight (net : Net) (side : Bool) :
    net.received side ++ net.inFlight side = net.sent side :=
  take_append_drop ..

namespace Sound

theorem window_eq (sound : Sound net) (side : Bool) (id : StreamId) :
    ((net.conn (!side)).peek id).windowOurs =
      ((net.conn side).peek id).windowTheirs + dataOn id (net.inFlight side) +
        creditOn id (net.inFlight (!side)) := by
  have theirs := (sound.books side).theirs id
  have ours := (sound.books (!side)).ours id
  rw [Bool.not_not] at ours
  rw [← net.received_append_inFlight side] at theirs
  rw [← net.received_append_inFlight (!side)] at ours
  simp only [dataOn, creditOn, sumOn_append] at theirs ours ⊢
  omega

theorem put (net : Net) (side : Bool) {c : Connection} {new : List YamuxFrame}
    (books : Books c (net.sent side ++ new) (net.received (!side)))
    (other : Books (net.conn (!side)) (net.sent (!side)) (net.received side))
    (arrived_le : ∀ side, net.arrived side ≤ (net.sent side).length)
    (once : (net.sent side ++ new).Pairwise fun before frame => frame.flags.SYN = true → before.streamId ≠ frame.streamId)
    (onceOther : (net.sent (!side)).Pairwise fun before frame => frame.flags.SYN = true → before.streamId ≠ frame.streamId)
    (unopened : ∀ frame ∈ net.inFlight side ++ new, frame.flags.SYN = true → (net.conn (!side)).stream frame.streamId = none)
    (unopenedOther : ∀ frame ∈ net.inFlight (!side), frame.flags.SYN = true → c.stream frame.streamId = none) :
    Sound { net with
      conn := Function.update net.conn side c
      sent := Function.update net.sent side (net.sent side ++ new) } := by
  have ne : (!side) ≠ side := by simp
  have received : (net.sent side ++ new).take (net.arrived side) = net.received side :=
    take_append_of_le_length (arrived_le side)
  have inFlight : (net.sent side ++ new).drop (net.arrived side) = net.inFlight side ++ new :=
    drop_append_of_le_length (arrived_le side)
  have both (s : Bool) : s = side ∨ s = !side := by cases s <;> cases side <;> simp
  refine ⟨fun s => ?_, fun s => ?_, fun s => ?_, fun s => ?_⟩
  all_goals rcases both s with rfl | rfl
  · simpa [Net.received, Function.update_of_ne ne] using books
  · simpa [Net.received, Function.update_of_ne ne, received] using other
  · have := arrived_le s
    simp only [Function.update_self, length_append]
    omega
  · simpa [Function.update_of_ne ne] using arrived_le (!side)
  · simpa using once
  · simpa [Function.update_of_ne ne] using onceOther
  · simpa [Net.inFlight, Function.update_of_ne ne, inFlight] using unopened
  · simpa [Net.inFlight, Function.update_of_ne ne] using unopenedOther

variable {grow : ℕ → ℕ → ℕ}

theorem put_eq_ok {r : Connection × List Dispatched} (run : net.put side r = .ok net') :
    overflow r.2 = false ∧ net' = { net with
        conn := Function.update net.conn side r.1
        sent := Function.update net.sent side (net.sent side ++ Dispatched.sent r.2) } := by
  rw [Net.put] at run
  split at run
  · cases run
  · next calm =>
    cases run
    exact ⟨eq_false_iff.2 calm, rfl⟩

theorem otherBooks (sound : Sound net) (side : Bool) :
    Books (net.conn (!side)) (net.sent (!side)) (net.received side) := by
  simpa using sound.books (!side)

theorem unopenedHere (sound : Sound net) {frame : YamuxFrame} (mem : frame ∈ net.inFlight (!side))
    (syn : frame.flags.SYN = true) : (net.conn side).stream frame.streamId = none := by
  simpa using sound.unopened (!side) frame mem syn

theorem openStream {id : StreamId} (sound : Sound net) (fresh : ∀ side, (net.conn side).stream id = none)
    (run : net.step grow (.openStream side id) = .ok net') : Sound net' := by
  have books := sound.books side
  obtain ⟨ds, turn, calm, unsent⟩ := Connection.turn_openStream grow id books.live
  rw [step, turn] at run
  obtain ⟨-, rfl⟩ := put_eq_ok run
  simp only [unsent]
  refine put net side ?_ (sound.otherBooks side) sound.arrived_le (by simpa using sound.once side)
    (sound.once (!side)) (by simpa using sound.unopened side) fun frame mem syn => ?_
  · simpa using books.openStream (fresh side) _
  · -- the stream of a frame from the other side is there
    have ne : frame.streamId ≠ id := (sound.otherBooks side).quiet id (fresh _) frame
      (mem_append_left _ (mem_of_mem_drop mem))
    exact (stream_setStream ..).trans ((if_neg ne).trans (sound.unopenedHere mem syn))

theorem outgoingData {id : StreamId} {data : Data} {flags : YamuxFlags} (sound : Sound net)
    (proper : Proper net (.outgoingData side id data flags))
    (run : net.step grow (.outgoingData side id data flags) = .ok net') : Sound net' := by
  have books := sound.books side
  have other := sound.otherBooks side
  rw [step] at run
  obtain ⟨calm, rfl⟩ := put_eq_ok run
  cases found : (net.conn side).stream id with
  | none =>
    have idle : (net.conn side).turn grow (.outgoingData id data flags) = (net.conn side, []) := by
      simp [turn, reducer, books.live, found, perform]
    rw [idle]
    refine put net side ?_ other sound.arrived_le ?_ (sound.once (!side)) ?_
      fun frame mem syn => sound.unopenedHere mem syn
    · simpa [Dispatched.sent] using books
    · simpa [Dispatched.sent] using sound.once side
    · simpa [Dispatched.sent] using sound.unopened side
  | some stream =>
    rw [turn_outgoingData books.live found] at calm ⊢
    -- when nothing has been sent or received on the stream, its first frame carries `SYN`
    have opening : (net.sent side).find? (fun frame => frame.streamId = id) = none →
        (stream.outgoingFlags flags).SYN = true ∨ ∃ frame ∈ net.received (!side), frame.streamId = id := by
      intro unsent
      by_cases heard : ∃ frame ∈ net.received (!side), frame.streamId = id
      · exact .inr heard
      · have unopened := books.unopened id stream found fun frame mem on => by
          rcases mem_append.1 mem with mem | mem
          · exact absurd on (by simpa using List.find?_eq_none.1 unsent frame mem)
          · exact heard ⟨frame, mem, on⟩
        simp [outgoingFlags, unopened.incoming, unopened.established, unopened.synSent]
    obtain ⟨c', ds, send⟩ : ∃ c' ds, (net.conn side).outgoingFrame
      ⟨stream.outgoingFlags flags, id, .data data⟩ = (c', ds) := ⟨_, _, rfl⟩
    rw [send] at calm ⊢
    obtain ⟨sent, rfl, on, syn, books', only, -⟩ := books.sendData found send calm opening
    have first : sent.flags.SYN = true → (net.conn (!side)).stream id = none ∧
        ∀ frame ∈ net.sent side, frame.streamId ≠ id := by
      intro isSyn
      obtain ⟨fresh, none⟩ := proper stream found (syn ▸ isSyn)
      refine ⟨fresh, fun frame mem => ?_⟩
      rw [← net.received_append_inFlight] at mem
      rcases mem_append.1 mem with mem | mem
      · exact other.quiet id fresh frame (mem_append_right _ mem)
      · exact none frame mem
    refine put net side books' other sound.arrived_le ?_ (sound.once (!side)) ?_ ?_
    · refine pairwise_append.2 ⟨sound.once side, pairwise_singleton .., ?_⟩
      intro before mem frame last isSyn
      cases mem_singleton.1 last
      rw [on]
      exact (first isSyn).2 before mem
    · intro frame mem isSyn
      rcases mem_append.1 mem with mem | mem
      · exact sound.unopened side frame mem isSyn
      · cases mem_singleton.1 mem
        rw [on]
        exact (first isSyn).1
    · intro frame mem isSyn
      have none := sound.unopenedHere mem isSyn
      have ne : frame.streamId ≠ id := by
        rintro eq
        rw [eq, found] at none
        cases none
      rw [only.others _ ne, none]

theorem le_sumOn {frame : YamuxFrame} {rest frames : List YamuxFrame} (flight : frames = frame :: rest)
    (f : YamuxFrame → ℕ) : f frame ≤ sumOn f frame.streamId frames := by
  simp [flight, sumOn]

theorem deliver (sound : Sound net) (run : net.step grow (.deliver side) = .ok net') : Sound net' := by
  have books := sound.books side
  have other := sound.otherBooks side
  rw [step] at run
  cases flight : net.inFlight (!side) with
  | nil =>
    rw [flight] at run
    cases run
    exact sound
  | cons frame rest =>
    have mem : frame ∈ net.inFlight (!side) := by simp [flight]
    have split : net.sent (!side) = net.received (!side) ++ frame :: rest := by
      rw [← flight, net.received_append_inFlight]
    -- the first frame to arrive on a stream carries `SYN`
    have known : (net.conn side).stream frame.streamId ≠ none ∨ frame.flags.SYN = true := by
      refine or_iff_not_imp_left.2 fun none => ?_
      have quiet := books.quiet frame.streamId (not_not.1 none)
      have first : (net.sent (!side)).find? (fun g => g.streamId = frame.streamId) = some frame := by
        rw [split, find?_append, find?_eq_none.2 fun g mem => by
          simpa using quiet g (mem_append_right _ mem)]
        simp
      refine (other.opening _ frame first).resolve_right ?_
      rintro ⟨g, heard, on⟩
      exact quiet g (mem_append_left _ (mem_of_mem_take heard)) on
    have fits : frame.len ≤ ((net.conn side).peek frame.streamId).windowOurs := by
      have eq := sound.window_eq (!side) frame.streamId
      rw [Bool.not_not] at eq
      have := le_sumOn flight len
      simp only [dataOn, creditOn] at eq
      omega
    have room : ((net.conn side).peek frame.streamId).windowTheirs + frame.grant < U32.MAX := by
      have eq := sound.window_eq side frame.streamId
      have := le_sumOn flight grant
      have := other.ours_le frame.streamId
      have : OURS_MAX < U32.MAX := by decide
      simp only [dataOn, creditOn] at eq
      omega
    obtain ⟨c', ds, turn⟩ : ∃ c' ds, ((net.conn side).queue frame).turn grow .incomingFrame = (c', ds) :=
      ⟨_, _, rfl⟩
    simp only [flight, turn] at run
    obtain ⟨calm, rfl⟩ := put_eq_ok run
    obtain ⟨books', mild, only⟩ := books.receiveTurn (other.plain frame (by simp [split])) known
      (sound.unopenedHere mem) fits room turn calm
    have ne : side ≠ !side := by simp
    have lt : net.arrived (!side) < (net.sent (!side)).length := by
      have := congrArg List.length flight
      simp only [inFlight, length_drop, length_cons] at this
      omega
    have length : (net.received (!side) ++ [frame]).length = net.arrived (!side) + 1 := by
      simp [received, lt.le]
    have next : (net.sent (!side)).drop (net.arrived (!side) + 1) = rest := by
      rw [split, append_cons, drop_left' length]
    have taken : (net.sent (!side)).take (net.arrived (!side) + 1) = net.received (!side) ++ [frame] := by
      nth_rewrite 1 [split]
      rw [append_cons, take_left' length]
    refine put { net with
        arrived := Function.update net.arrived (!side) (net.arrived (!side) + 1) } side ?_ ?_ ?_ ?_
      (sound.once (!side)) ?_ ?_
    · simpa [received, taken] using books'
    · simpa [received, Function.update_of_ne ne] using other
    · intro s
      by_cases eq : s = !side
      · simpa [eq] using lt
      · simpa [Function.update_of_ne eq] using sound.arrived_le s
    · refine pairwise_append.2 ⟨sound.once side, ?_, fun before _ sent mem syn => ?_⟩
      · exact pairwise_of_forall_mem_list fun _ _ sent mem syn => by simp [(mild sent mem).2] at syn
      · simp [(mild sent mem).2] at syn
    · intro sent mem syn
      rcases mem_append.1 mem with mem | mem
      · refine sound.unopened side sent ?_ syn
        simpa [inFlight, Function.update_of_ne ne] using mem
      · simp [(mild sent mem).2] at syn
    · intro later mem syn
      have mem : later ∈ rest := by simpa [inFlight, next] using mem
      have after := (pairwise_cons.1 (pairwise_append.1 (split ▸ sound.once (!side))).2.1).1
      rw [only.others _ (after later mem syn).symm]
      exact sound.unopenedHere (flight ▸ mem_cons_of_mem _ mem) syn

end Sound

/-- In every proper run, our window of a stream is what the peer may still send, what
it has sent that is on its way, and the credit that is on its way to it; no data
that arrives exceeds the window, and nobody has sent more than it was granted. -/
theorem windows_agree {grow : ℕ → ℕ → ℕ} {start net : Net} (init : Init start) (events : List Event)
    (proper : Along (step grow) Proper start events)
    (run : events.foldlM (step grow) start = .ok net) (side : Bool) (id : StreamId) :
    ((net.conn (!side)).peek id).windowOurs =
        ((net.conn side).peek id).windowTheirs + dataOn id (net.inFlight side) +
          creditOn id (net.inFlight (!side)) ∧
      (∀ frame rest, net.inFlight side = frame :: rest →
        frame.lenAsU32 ≤ ((net.conn (!side)).peek frame.streamId).windowOurs) ∧
      dataOn id (net.sent side) ≤ INITIAL_WINDOW_SIZE + creditOn id (net.received (!side)) := by
  have next : ∀ {net event net'}, Sound net → Proper net event → step grow net event = .ok net' →
      Sound net' := by
    intro net event net' sound proper run
    cases event with
    | openStream side id => exact sound.openStream proper run
    | outgoingData side id data flags => exact sound.outgoingData proper run
    | deliver side => exact sound.deliver run
  have sound := proper.induction next init.sound run
  refine ⟨sound.window_eq side id, fun frame rest flight => ?_, ?_⟩
  · have eq := sound.window_eq side frame.streamId
    have len := Sound.le_sumOn flight len
    have le : frame.lenAsU32 ≤ frame.len := min_le_left ..
    simp only [dataOn, creditOn] at eq
    omega
  · have := (sound.books side).theirs id
    omega

def start : Net :=
  ⟨fun _ => .init (.some 0x10000000) .unlimited .unlimited, fun _ => [], fun _ => 0⟩

/-- A byte each way on a stream that one side opens. -/
theorem windows_agree_two : ∃ net, [.openStream true 1, .outgoingData true 1 [5] .empty, .deliver false,
        .outgoingData false 1 [6] .empty].foldlM (step fun _ n => n) start = .ok net ∧
      ((net.conn true).peek 1).windowOurs =
        ((net.conn false).peek 1).windowTheirs + dataOn 1 (net.inFlight false) +
          creditOn 1 (net.inFlight true) := by
  have proper : Along (step fun _ n => n) Proper start [.openStream true 1,
      .outgoingData true 1 [5] .empty, .deliver false, .outgoingData false 1 [6] .empty] := by
    refine ⟨fun _ => rfl, fun net run => ?_⟩
    cases run
    refine ⟨fun _ _ _ => ⟨rfl, nofun⟩, fun net run => ?_⟩
    cases run
    refine ⟨trivial, fun net run => ?_⟩
    cases run
    refine ⟨?_, fun _ _ => trivial⟩
    rintro _ ⟨⟩ ⟨⟩
  refine ⟨_, rfl, (windows_agree ?_ _ proper rfl false 1).1⟩
  exact ⟨fun _ _ => rfl, fun _ => rfl, fun _ => rfl, fun _ => rfl, fun _ => rfl⟩

/-- A stream whose first frame carries `FIN` is opened a second time by its next
frame, and the receiver forgets what it has received. -/
theorem windows_disagree :
    ∃ net, [.openStream true 1, .outgoingData true 1 [5] { YamuxFlags.empty with FIN := true },
        .outgoingData true 1 [6] .empty, .deliver false, .deliver false].foldlM (step fun _ n => n)
        start = .ok net ∧
      ((net.conn false).peek 1).windowOurs = INITIAL_WINDOW_SIZE - 1 ∧
      ((net.conn true).peek 1).windowTheirs = INITIAL_WINDOW_SIZE - 2 ∧
      net.inFlight true = [] ∧ net.inFlight false = [] :=
  ⟨_, rfl, rfl, rfl, rfl, rfl⟩

end Net

end MinaRust.Yamux
