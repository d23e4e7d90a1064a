/-
  The messages of an rpc stream: chunks of bytes are cut into messages, which are handled one
  action at a time (`p2p_network_rpc_reducer.rs`).

  Each `IncomingMessage` dispatches the next one, except after a response that nothing waits
  for, where the messages behind it wait for the next chunk.  The pending query may change
  before any action.
-/
import MinaRust.Lib.Checked
import MinaRust.Lib.Framing

namespace MinaRust.Rpc

open List

open Framing

abbrev Bytes := List UInt8

def toLeBytes : ℕ → ℕ → Bytes
  | 0, _ => []
  | width + 1, v => UInt8.ofNat (v % 256) :: toLeBytes width (v / 256)

def fromLeBytes : Bytes → ℕ
  | [] => 0
  | b :: bs => b.toNat + 256 * fromLeBytes bs

@[simp] theorem length_toLeBytes (width v : ℕ) : (toLeBytes width v).length = width := by
  induction width generalizing v with
  | zero => rfl
  | succ width ih => simp [toLeBytes, ih]

theorem fromLeBytes_toLeBytes {width v : ℕ} (small : v < 256 ^ width) : fromLeBytes (toLeBytes width v) = v := by
  induction width generalizing v with
  | zero =>
    rw [Nat.lt_one_iff.1 small]
    rfl
  | succ width ih =>
    have less : v / 256 < 256 ^ width := Nat.div_lt_of_lt_mul (by rwa [pow_succ'] at small)
    rw [toLeBytes, fromLeBytes, ih less, UInt8.toNat_ofNat_of_lt' (Nat.mod_lt _ (by decide))]
    exact Nat.mod_add_div v 256

/-! ## Messages -/

/-- `MessageHeader`, for headers `Q` of queries. -/
inductive MessageHeader (Q I : Type) where
  | heartbeat
  | query (header : Q)
  | response (id : I)

inductive RpcMessage (Q I : Type) where
  | handshake
  | heartbeat
  | query (header : Q) (bytes : Bytes)
  | response (id : I) (bytes : Bytes)
deriving DecidableEq

/-- The id in the header of a query, the limit for the kind of stream and the pending query
(none: no limit), and the code of headers. -/
structure Env (Q I : Type) where
  id : Q → I
  handshakeId : I
  limit : Bool → Option Q → Option ℕ
  binprotWrite : MessageHeader Q I → Bytes
  binprotRead : Bytes → Option (MessageHeader Q I × Bytes)
  read_write : ∀ header rest, binprotRead (binprotWrite header ++ rest) = some (header, rest)

inductive RpcError where
  | binprot
  | limit (len : ℕ)
deriving DecidableEq

structure RpcState (Q I : Type) where
  pending : Option Q
  isIncoming : Bool
  buffer : Bytes := []
  incoming : List (RpcMessage Q I) := []
  error : Option RpcError := none

variable {Q I : Type} (env : Env Q I)

def RpcMessage.body : RpcMessage Q I → Bytes
  | .handshake => env.binprotWrite (.response env.handshakeId) ++ [1]
  | .heartbeat => env.binprotWrite .heartbeat
  | .query header bytes => env.binprotWrite (.query header) ++ bytes
  | .response id bytes => env.binprotWrite (.response id) ++ bytes

def RpcMessage.intoBytes (message : RpcMessage Q I) : Bytes :=
  toLeBytes 8 (message.body env).length ++ message.body env

variable [DecidableEq I]

def readMessage (slice : Bytes) : Option (RpcMessage Q I) :=
  (env.binprotRead slice).map fun (header, bytes) =>
    match header with
    | .heartbeat => .heartbeat
    | .response id => if id = env.handshakeId then .handshake else .response id bytes
    | .query header => .query header bytes

namespace RpcState

def checkRpcLimit (s : RpcState Q I) (len : ℕ) : Bool :=
  (env.limit s.isIncoming s.pending).all fun limit => decide (len ≤ limit)

def readLoop : ℕ → ℕ → RpcState Q I → RpcState Q I
  | 0, _, s => s
  | rounds + 1, offset, s =>
    let buf := s.buffer.drop offset
    let len := fromLeBytes (buf.take 8)
    if buf.length < 8 then { s with buffer := buf }
    else if s.checkRpcLimit env len = false then { s with error := some (.limit len) }
    else if buf.length < 8 + len then { s with buffer := buf }
    else
      match readMessage env ((buf.drop 8).take len) with
      | some message => readLoop rounds (offset + (8 + len)) { s with incoming := s.incoming ++ [message] }
      | none => readLoop rounds (offset + (8 + len)) { s with error := some .binprot }

def incomingData (s : RpcState Q I) (data : Bytes) : RpcState Q I :=
  readLoop env (s.buffer.length + data.length + 1) 0 { s with buffer := s.buffer ++ data }

end RpcState

/-- A response other than the handshake is expected by the pending query. -/
def expected (pending : Option Q) : RpcMessage Q I → Bool
  | .response id _ => pending.any fun header => decide (env.id header = id)
  | _ => true

/-- A stream with the `IncomingMessage` that is dispatched, the messages that were handled
and the bytes that have arrived. -/
structure Stream (Q I : Type) extends RpcState Q I where
  dispatched : Option (RpcMessage Q I) := none
  handled : List (RpcMessage Q I) := []
  arrived : Bytes := []

inductive RpcEvent (Q : Type) where
  | incomingData (data : Bytes)
  | incomingMessage
  | setPending (header : Option Q)

namespace Stream

variable (s : Stream Q I)

def incomingMessage (message : RpcMessage Q I) : Stream Q I :=
  let pending :=
    match message, s.pending with
    | .query header _, none => some header
    | _, pending => pending
  { s with
    pending := pending
    incoming := s.incoming.tail
    dispatched := if expected env pending message then s.incoming.tail.head? else none
    handled := s.handled ++ [message] }

def step : RpcEvent Q → Stream Q I
  | .incomingData data =>
    if s.error.isSome then s
    else
      let rpc := s.toRpcState.incomingData env data
      { s with toRpcState := rpc, dispatched := rpc.incoming.head?, arrived := s.arrived ++ data }
  | .incomingMessage =>
    match s.dispatched with
    | none => s
    | some message => if s.error.isSome then { s with dispatched := none } else s.incomingMessage env message
  | .setPending header => { s with pending := header }

/-! ## What is claimed of a stream -/

/-- All complete messages that have arrived are handled, in their order. -/
structure CaughtUp (messages : List (RpcMessage Q I)) (s : Stream Q I) : Prop where
  incoming : s.incoming = []
  handled : ∃ rest, messages = s.handled ++ rest ∧ s.arrived = s.handled.flatMap (·.intoBytes env) ++ s.buffer ∧
    Waits (·.intoBytes env) rest s.buffer
  finished : s.arrived = messages.flatMap (·.intoBytes env) → s.handled = messages ∧ s.buffer = []

/-- A chunk of the messages' bytes, which are within the limits, comes when all actions
have been handled. -/
def Admissible (messages : List (RpcMessage Q I)) (s : Stream Q I) : RpcEvent Q → Prop
  | .incomingData data => s.dispatched = none ∧ s.arrived ++ data <+: messages.flatMap (·.intoBytes env) ∧
    (s.step env (.incomingData data)).error = none
  | _ => True

/-- No message is behind a response that is not expected. -/
def GoesOn : RpcEvent Q → Prop
  | .incomingMessage => ∀ message, s.dispatched = some message →
    expected env s.pending message = true ∨ s.incoming.tail = []
  | _ => True

end Stream

/-- The length fits its eight bytes, and no response has the id of the handshake. -/
def Valid (message : RpcMessage Q I) : Prop :=
  (message.body env).length < 256 ^ 8 ∧ ∀ bytes, message ≠ .response env.handshakeId bytes

variable {env} {message : RpcMessage Q I} {messages done rest : List (RpcMessage Q I)} {p : Bytes}

omit [DecidableEq I] in
theorem length_intoBytes : (message.intoBytes env).length = 8 + (message.body env).length := by
  simp [RpcMessage.intoBytes]

omit [DecidableEq I] in
theorem fromLeBytes_take (valid : Valid env message) (part : p <+: message.intoBytes env) (long : 8 ≤ p.length) :
    fromLeBytes (p.take 8) = (message.body env).length := by
  obtain ⟨later, eq⟩ := part
  have front := congrArg (List.take 8) eq
  rw [take_append_of_le_length long, RpcMessage.intoBytes, take_left' (length_toLeBytes ..)] at front
  rw [front, fromLeBytes_toLeBytes valid.1]

theorem readMessage_body (valid : Valid env message) : readMessage env (message.body env) = some message := by
  cases message with
  | heartbeat =>
    have read := env.read_write .heartbeat []
    rw [append_nil] at read
    simp [readMessage, RpcMessage.body, read]
  | response id bytes =>
    have other : id ≠ env.handshakeId := fun eq => valid.2 bytes (eq ▸ rfl)
    simp [readMessage, RpcMessage.body, env.read_write, other]
  | _ => simp [readMessage, RpcMessage.body, env.read_write]

/-- The loop takes off the messages that are complete, unless one exceeds the limit. -/
theorem readLoop_eq {s : RpcState Q I} {rounds offset : ℕ} (good : ∀ m ∈ done ++ rest, Valid env m)
    (waits : Waits (·.intoBytes env) rest p) (buffered : s.buffer.drop offset = done.flatMap (·.intoBytes env) ++ p)
    (enough : done.length < rounds) (within : (s.readLoop env rounds offset).error = none) :
    s.readLoop env rounds offset = { s with incoming := s.incoming ++ done, buffer := p } := by
  induction done generalizing s rounds offset with
  | nil =>
    obtain ⟨rounds, rfl⟩ := Nat.exists_eq_add_of_lt enough
    rw [flatMap_nil, nil_append] at buffered
    simp only [RpcState.readLoop, buffered, append_nil, length_nil, Nat.zero_add] at within ⊢
    split
    · rfl
    · next long =>
      rw [if_neg long] at within
      split at within
      · cases within
      · next fits =>
        rw [if_neg fits]
        cases rest with
        | nil => simp [show p = [] from waits] at long
        | cons m rest =>
          have len := fromLeBytes_take (good m mem_cons_self) waits.1 (not_lt.1 long)
          rw [len, ← length_intoBytes, if_pos waits.2]
  | cons m done ih =>
    obtain ⟨rounds, rfl⟩ : ∃ n, rounds = n + 1 := ⟨rounds - 1, by simp at enough; omega⟩
    have valid := good m mem_cons_self
    rw [flatMap_cons, append_assoc] at buffered
    have len : fromLeBytes ((m.intoBytes env ++ (done.flatMap (·.intoBytes env) ++ p)).take 8) = (m.body env).length := by
      rw [take_append_of_le_length (by simp [length_intoBytes])]
      exact fromLeBytes_take valid prefix_rfl (by simp [length_intoBytes])
    have slice : ((m.intoBytes env ++ (done.flatMap (·.intoBytes env) ++ p)).drop 8).take (m.body env).length =
        m.body env := by
      rw [RpcMessage.intoBytes, append_assoc, drop_left' (length_toLeBytes ..), take_left]
    have next : s.buffer.drop (offset + (8 + (m.body env).length)) = done.flatMap (·.intoBytes env) ++ p := by
      rw [← drop_drop, buffered, drop_left' length_intoBytes]
    have long : ¬(m.intoBytes env ++ (done.flatMap (·.intoBytes env) ++ p)).length < 8 + (m.body env).length := by
      rw [length_append, length_intoBytes]
      omega
    simp only [RpcState.readLoop, buffered, len, slice, readMessage_body valid, if_neg long] at within ⊢
    rw [if_neg (by omega)] at within ⊢
    split at within
    · cases within
    · next fits =>
      have later := ih (s := { s with incoming := s.incoming ++ [m] })
        (fun m' mem => good m' (mem_cons_of_mem _ mem)) next (by simpa using enough) within
      simp [if_neg fits, later, append_assoc]

namespace Stream

variable {s : Stream Q I}

/-- Between two actions: the messages that have arrived are handled or in the queue, of
which the first is dispatched. -/
structure Sound (env : Env Q I) (messages : List (RpcMessage Q I)) (s : Stream Q I) : Prop where
  error : s.error = none
  dispatched : s.dispatched = s.incoming.head?
  arrived : ∃ rest, messages = s.handled ++ s.incoming ++ rest ∧
    s.arrived = (s.handled ++ s.incoming).flatMap (·.intoBytes env) ++ s.buffer ∧
    Waits (·.intoBytes env) rest s.buffer

omit [DecidableEq I] in
theorem Sound.caughtUp (sound : s.Sound env messages) (settled : s.dispatched = none) : s.CaughtUp env messages := by
  have empty : s.incoming = [] := List.head?_eq_none_iff.1 (sound.dispatched ▸ settled)
  obtain ⟨rest, eq, arrived, waits⟩ := sound.arrived
  rw [empty, append_nil] at eq arrived
  refine ⟨empty, ⟨rest, eq, arrived, waits⟩, fun all => ?_⟩
  rw [arrived, eq, flatMap_append, append_cancel_left_eq] at all
  cases (all ▸ waits).eq_nil
  exact ⟨by simpa using eq.symm, all⟩

theorem Sound.incomingData (sound : s.Sound env messages) (good : ∀ m ∈ messages, Valid env m) {data : Bytes}
    (admissible : s.Admissible env messages (.incomingData data)) : (s.step env (.incomingData data)).Sound env messages := by
  obtain ⟨settled, part, within⟩ := admissible
  obtain ⟨empty, ⟨rest, eq, arrived, waits⟩, -⟩ := sound.caughtUp settled
  rw [arrived, eq, flatMap_append, append_assoc, prefix_append_right_inj] at part
  obtain ⟨done, rest, p, rfl, cut, waits'⟩ := exists_waits part
  have few : done.length ≤ (s.buffer ++ data).length := by
    rw [cut, length_append, length_flatMap]
    refine le_trans ?_ (Nat.le_add_right ..)
    have := sum_le_sum (l := done) (f := fun _ => 1) fun m _ => show 1 ≤ (m.intoBytes env).length by
      rw [length_intoBytes]; omega
    simpa using this
  simp only [Stream.step, sound.error, Option.isSome_none, Bool.false_eq_true, if_false] at within ⊢
  have read := readLoop_eq (s := { s.toRpcState with buffer := s.buffer ++ data })
    (fun m mem => good m (eq ▸ mem_append_right _ mem)) waits' (by simpa using cut)
    (by simpa using Nat.lt_succ_of_le few) within
  rw [RpcState.incomingData, read]
  refine ⟨sound.error, rfl, rest, ?_, ?_, waits'⟩
  · simpa [empty] using eq
  · simp [empty, arrived, cut]

theorem incomingMessage_dispatched : (s.incomingMessage env message).dispatched =
    if expected env s.pending message then s.incoming.tail.head? else none := by
  cases message <;> rfl

/-- **One action**: if it leaves none to be handled, the stream has caught up, exactly if the
chain of messages goes on. -/
theorem Sound.step (sound : s.Sound env messages) (good : ∀ m ∈ messages, Valid env m) (e : RpcEvent Q)
    (admissible : s.Admissible env messages e) :
    (((s.step env e).dispatched = none → (s.step env e).CaughtUp env messages) ↔ s.GoesOn env e) ∧
      (s.GoesOn env e → (s.step env e).Sound env messages) := by
  have calm : s.GoesOn env e → (s.step env e).Sound env messages → (((s.step env e).dispatched = none →
      (s.step env e).CaughtUp env messages) ↔ s.GoesOn env e) ∧ (s.GoesOn env e → (s.step env e).Sound env messages) :=
    fun goes next => ⟨iff_of_true next.caughtUp goes, fun _ => next⟩
  cases e with
  | incomingData data => exact calm trivial (sound.incomingData good admissible)
  | setPending header => exact calm trivial ⟨sound.error, sound.dispatched, sound.arrived⟩
  | incomingMessage =>
    rcases queue : s.incoming with _ | ⟨m, later⟩
    · have idle : s.dispatched = none := by rw [sound.dispatched, queue]; rfl
      refine calm (fun _ some => nomatch idle.symm.trans some) ?_
      simpa [Stream.step, idle] using sound
    · have first : s.dispatched = some m := by rw [sound.dispatched, queue]; rfl
      have next : s.step env .incomingMessage = s.incomingMessage env m := by simp [Stream.step, first, sound.error]
      have rest : (s.incomingMessage env m).incoming = later := congrArg List.tail queue
      have last : (s.incomingMessage env m).dispatched =
          if expected env s.pending m then later.head? else none := by
        rw [incomingMessage_dispatched, queue]
        rfl
      by_cases goes : expected env s.pending m = true ∨ later = []
      · refine calm (fun m' some => ?_) ?_
        · cases first.symm.trans some
          simpa [queue] using goes
        · obtain ⟨rest', eq, arrived, waits⟩ := sound.arrived
          rw [next]
          refine ⟨sound.error, ?_, rest', ?_, ?_, waits⟩
          · rw [last, rest]
            rcases goes with yes | rfl
            · rw [if_pos yes]
            · simp
          · rw [rest, eq, queue]
            simp [Stream.incomingMessage]
          · rw [rest]
            simpa [Stream.incomingMessage, queue] using arrived
      · have stops : ¬s.GoesOn env .incomingMessage := fun on => goes (by simpa [queue] using on m first)
        refine ⟨iff_of_false (fun caught => ?_) stops, fun on => absurd on stops⟩
        rw [next] at caught
        have none : (s.incomingMessage env m).dispatched = none := by
          rw [last, if_neg fun yes => goes (.inl yes)]
        exact goes (.inr (rest ▸ (caught none).incoming))

def new (isIncoming : Bool) (pending : Option Q) : Stream Q I := { pending, isIncoming }

/-- **Messages are handled in time**: after every action that leaves none to be handled, all
    messages that have arrived are handled, exactly if no message is ever behind a response
    that is not expected. -/
theorem rpc_stream_iff (good : ∀ m ∈ messages, Valid env m) (isIncoming : Bool) (pending : Option Q)
    (events : List (RpcEvent Q)) (admissible : ∀ before e, before ++ [e] <+: events →
      (before.foldl (step env) (new isIncoming pending)).Admissible env messages e) :
    (∀ before e, before ++ [e] <+: events →
      ((before.foldl (step env) (new isIncoming pending)).step env e).dispatched = none →
        ((before.foldl (step env) (new isIncoming pending)).step env e).CaughtUp env messages) ↔
    ∀ before e, before ++ [e] <+: events → (before.foldl (step env) (new isIncoming pending)).GoesOn env e := by
  refine foldl_good_iff_of (Sound env messages) (fun s e sound => sound.step good e) events
    ⟨rfl, rfl, messages, rfl, rfl, ?_⟩ admissible
  cases messages with
  | nil => rfl
  | cons m messages => exact ⟨List.nil_prefix, by simp [length_intoBytes, new]⟩

/-- Headers of one or two bytes; a query is its id, and the handshake has the id 0. -/
def sampleEnv : Env UInt8 UInt8 where
  id header := header
  handshakeId := 0
  limit _ _ := some 100
  binprotWrite
    | .heartbeat => [0]
    | .query header => [1, header]
    | .response id => [2, id]
  binprotRead
    | 0 :: rest => some (.heartbeat, rest)
    | 1 :: header :: rest => some (.query header, rest)
    | 2 :: id :: rest => some (.response id, rest)
    | _ => none
  read_write header rest := by cases header <;> rfl

/-- A heartbeat in two chunks. -/
theorem rpc_stream_heartbeat : RpcMessage.intoBytes sampleEnv .heartbeat = [1, 0, 0] ++ [0, 0, 0, 0, 0, 0] ∧
      ∀ before e, before ++ [e] <+: [.incomingData [1, 0, 0], .incomingData [0, 0, 0, 0, 0, 0], .incomingMessage] →
        ((before.foldl (step sampleEnv) (new false none)).step sampleEnv e).dispatched = none →
          ((before.foldl (step sampleEnv) (new false none)).step sampleEnv e).CaughtUp sampleEnv [.heartbeat] := by
  have good : ∀ m ∈ [RpcMessage.heartbeat], Valid sampleEnv m := by simp [Valid, RpcMessage.body, sampleEnv]
  refine ⟨by decide, (rpc_stream_iff good false none _ ?_).2 ?_⟩
  · refine forall_steps_cons.2 ⟨⟨rfl, by decide, rfl⟩, forall_steps_cons.2 ⟨⟨rfl, by decide, rfl⟩,
      forall_steps_cons.2 ⟨trivial, fun before e pre => ?_⟩⟩⟩
    exact absurd (prefix_nil.1 pre) (by simp)
  · refine forall_steps_cons.2 ⟨trivial, forall_steps_cons.2 ⟨trivial,
      forall_steps_cons.2 ⟨fun _ _ => .inr rfl, fun before e pre => ?_⟩⟩⟩
    exact absurd (prefix_nil.1 pre) (by simp)

/-- A response that nothing waits for and a heartbeat come in one chunk: the heartbeat is
    not handled. -/
theorem rpc_stream_stuck :
    ∃ s, [.incomingData (RpcMessage.intoBytes sampleEnv (.response 5 []) ++ RpcMessage.intoBytes sampleEnv .heartbeat),
        .incomingMessage].foldl (step sampleEnv) (new false none) = s ∧
      s.dispatched = none ∧ s.handled = [.response 5 []] ∧ s.incoming = [.heartbeat] := by
  refine ⟨_, rfl, ?_⟩
  decide

end Stream

end MinaRust.Rpc
