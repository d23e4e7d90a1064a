/-
  Which cuttings of a peer's bytes give its messages.

  The buffer of a client is empty or holds the first piece of a message.  A chunk is decoded
  together with it, at most one message is taken, and what follows is dropped; so is a
  message of which the second piece is not the last.
-/
import MinaRust.Pubsub.State

namespace MinaRust.Pubsub

open List Option

/-! ## Buffers -/

section Feed

variable {T : Type}

variable (decode : Bytes → Except DecodeError (Rpc T))

/-- A chunk that comes when the bytes `pending` are in the buffer. -/
def feed (pending data : Bytes) : Bytes × Option (Rpc T) :=
  match decode (pending ++ data) with
  | .ok decoded => ([], some decoded)
  | .error .bufferUnderflow => if pending.isEmpty then (data, none) else ([], none)
  | .error .other => ([], none)

def feedAll (pending : Bytes) : List Bytes → List (Rpc T) × Bytes
  | [] => ([], pending)
  | data :: rest =>
    ((feed decode pending data).2.toList ++ (feedAll (feed decode pending data).1 rest).1,
      (feedAll (feed decode pending data).1 rest).2)

/-- The decoder takes the first message of the slice, and finds too few bytes exactly in a
proper part of a message. -/
structure Delimited (IsMessage : Rpc T → Prop) (encode : Rpc T → Bytes) : Prop where
  first : ∀ {slice rpc}, decode slice = .ok rpc ↔ IsMessage rpc ∧ encode rpc <+: slice
  underflow : ∀ {slice}, decode slice = .error .bufferUnderflow ↔
    ∃ rpc, IsMessage rpc ∧ slice <+: encode rpc ∧ slice ≠ encode rpc

/-- Every message comes in one or two chunks of its own. -/
inductive InPieces (encode : Rpc T → Bytes) : List (Rpc T) → List Bytes → Prop
  | nil : InPieces encode [] []
  | whole {rpc : Rpc T} {messages : List (Rpc T)} {chunks : List Bytes} (rest : InPieces encode messages chunks) :
      InPieces encode (rpc :: messages) (encode rpc :: chunks)
  | halves {rpc : Rpc T} {messages : List (Rpc T)} {first second : Bytes} {chunks : List Bytes}
      (cut : first ++ second = encode rpc) (rest : InPieces encode messages chunks) :
      InPieces encode (rpc :: messages) (first :: second :: chunks)

variable {decode} {IsMessage : Rpc T → Prop} {encode : Rpc T → Bytes} {pending data : Bytes}

theorem feed_ok {rpc : Rpc T} (found : decode (pending ++ data) = .ok rpc) :
    feed decode pending data = ([], some rpc) := by
  rw [feed, found]

theorem feed_underflow (short : decode data = .error .bufferUnderflow) : feed decode [] data = (data, none) := by
  rw [feed, nil_append, short]
  rfl

theorem feed_cases (codec : Delimited decode IsMessage encode) (pending data : Bytes) :
    (∃ rpc dropped, feed decode pending data = ([], some rpc) ∧ pending ++ data = encode rpc ++ dropped) ∨
      (pending = [] ∧ feed decode pending data = (data, none)) ∨
      feed decode pending data = ([], none) := by
  unfold feed
  split
  · next rpc found =>
    obtain ⟨-, dropped, eq⟩ := codec.first.1 found
    exact .inl ⟨rpc, dropped, rfl, eq.symm⟩
  · split
    · next empty => exact .inr (.inl ⟨List.isEmpty_iff.1 empty, rfl⟩)
    · exact .inr (.inr rfl)
  · exact .inr (.inr rfl)

def bytesOf (encode : Rpc T → Bytes) (messages : List (Rpc T)) : ℕ := (messages.flatMap encode).length

theorem length_feedAll_le (codec : Delimited decode IsMessage encode) (pending : Bytes) (chunks : List Bytes) :
    bytesOf encode (feedAll decode pending chunks).1 + (feedAll decode pending chunks).2.length ≤
      pending.length + chunks.flatten.length := by
  induction chunks generalizing pending with
  | nil => simp [feedAll, bytesOf]
  | cons data rest ih =>
    have later := ih (feed decode pending data).1
    rw [flatten_cons, length_append, feedAll]
    rcases feed_cases codec pending data with ⟨rpc, dropped, fed, eq⟩ | ⟨rfl, fed⟩ | fed
    · have lengths := congrArg List.length eq
      rw [length_append, length_append] at lengths
      rw [fed] at later ⊢
      simp only [bytesOf, toList_some, singleton_append, flatMap_cons, length_append, length_nil] at later ⊢
      omega
    · rw [fed] at later ⊢
      simp only [toList_none, nil_append, length_nil] at later ⊢
      omega
    · rw [fed] at later ⊢
      simp only [toList_none, nil_append, length_nil] at later ⊢
      omega

/-- If no byte is dropped, every message came in one or two chunks of its own. -/
theorem inPieces_of_feedAll (codec : Delimited decode IsMessage encode) : ∀ (chunks : List Bytes),
    (∀ chunk ∈ chunks, chunk ≠ []) → (feedAll decode [] chunks).2 = [] →
      chunks.flatten.length ≤ bytesOf encode (feedAll decode [] chunks).1 →
      InPieces encode (feedAll decode [] chunks).1 chunks
  | [], _, _, _ => .nil
  | data :: rest, nonempty, last, exact => by
    rw [forall_mem_cons] at nonempty
    have some_ := length_pos_iff.2 nonempty.1
    have later := length_feedAll_le codec (feed decode [] data).1 rest
    rw [flatten_cons, length_append] at exact
    rw [feedAll] at last exact ⊢
    rcases feed_cases codec [] data with ⟨rpc, dropped, fed, eq⟩ | ⟨-, fed⟩ | fed
    · -- a whole message, with nothing after it
      rw [fed] at later last exact ⊢
      simp only [toList_some, singleton_append, bytesOf, flatMap_cons, length_append,
        length_nil] at later last exact ⊢
      rw [nil_append] at eq
      have lengths := congrArg List.length eq
      rw [length_append] at lengths
      obtain rfl : dropped = [] := eq_nil_of_length_eq_zero (by omega)
      rw [append_nil] at eq
      subst eq
      exact .whole (inPieces_of_feedAll codec rest nonempty.2 last (by simp only [bytesOf]; omega))
    · -- a first piece: the next chunk has the rest of the message
      rw [fed] at last exact ⊢
      simp only [toList_none, nil_append] at last exact ⊢
      cases rest with
      | nil => exact absurd last nonempty.1
      | cons data₂ rest =>
        have later := length_feedAll_le codec (feed decode data data₂).1 rest
        rw [flatten_cons, length_append] at exact
        rw [feedAll] at last exact ⊢
        rw [forall_mem_cons] at nonempty
        rcases feed_cases codec data data₂ with ⟨rpc, dropped, fed, eq⟩ | ⟨empty, -⟩ | fed
        · rw [fed] at later last exact ⊢
          simp only [toList_some, singleton_append, bytesOf, flatMap_cons, length_append,
            length_nil] at later last exact ⊢
          have lengths := congrArg List.length eq
          rw [length_append, length_append] at lengths
          obtain rfl : dropped = [] := eq_nil_of_length_eq_zero (by omega)
          rw [append_nil] at eq
          exact .halves eq (inPieces_of_feedAll codec rest nonempty.2.2 last (by simp only [bytesOf]; omega))
        · exact absurd empty nonempty.1
        · rw [fed] at later exact
          simp only [toList_none, nil_append, length_nil] at later exact
          omega
    · rw [fed] at later exact
      simp only [toList_none, nil_append, length_nil] at later exact
      omega

variable {messages : List (Rpc T)}

theorem feedAll_of_inPieces (codec : Delimited decode IsMessage encode) {chunks : List Bytes}
    (pieces : InPieces encode messages chunks) (valid : ∀ rpc ∈ messages, IsMessage rpc)
    (nonempty : ∀ chunk ∈ chunks, chunk ≠ []) : feedAll decode [] chunks = (messages, []) := by
  induction pieces with
  | nil => rfl
  | @whole rpc messages chunks _ ih =>
    rw [forall_mem_cons] at valid nonempty
    have fed : feed decode [] (encode rpc) = ([], some rpc) :=
      feed_ok (codec.first.2 ⟨valid.1, prefix_refl _⟩)
    rw [feedAll, fed, ih valid.2 nonempty.2]
    rfl
  | @halves rpc messages first second chunks cut _ ih =>
    rw [forall_mem_cons] at valid nonempty
    rw [forall_mem_cons] at nonempty
    have short : decode first = .error .bufferUnderflow := by
      refine codec.underflow.2 ⟨rpc, valid.1, ⟨second, cut⟩, fun eq => nonempty.2.1 ?_⟩
      rw [← cut] at eq
      simpa using eq
    have fed : feed decode first second = ([], some rpc) :=
      feed_ok (codec.first.2 ⟨valid.1, cut ▸ prefix_refl _⟩)
    rw [feedAll, feed_underflow short, feedAll, fed, ih valid.2 nonempty.2.2]
    rfl

/-- The chunks of some messages give these messages exactly if each message comes in one or
two chunks of its own. -/
theorem feedAll_iff (codec : Delimited decode IsMessage encode) {chunks : List Bytes}
    (valid : ∀ rpc ∈ messages, IsMessage rpc) (nonempty : ∀ chunk ∈ chunks, chunk ≠ [])
    (cut : chunks.flatten = messages.flatMap encode) :
    feedAll decode [] chunks = (messages, []) ↔ InPieces encode messages chunks := by
  constructor
  · intro fed
    have pieces := inPieces_of_feedAll codec chunks nonempty (by rw [fed]) (by rw [fed, cut]; rfl)
    rwa [fed] at pieces
  · intro pieces
    exact feedAll_of_inPieces codec pieces valid nonempty

end Feed

/-! ## The state -/

variable {P T S B W H J : Type} [LinearOrder S] (env : Env P T S B W H J)

theorem ClientState.takeIn_eq_feed (client : ClientState T S) (data : Bytes) :
    (client.takeIn env data).1.buffer = (feed env.decodeLengthDelimited client.buffer data).1 ∧
      (client.takeIn env data).2 = (feed env.decodeLengthDelimited client.buffer data).2 := by
  unfold takeIn feed
  cases env.decodeLengthDelimited (client.buffer ++ data) with
  | ok decoded => exact ⟨rfl, rfl⟩
  | error e =>
    cases e with
    | other => exact ⟨rfl, rfl⟩
    | bufferUnderflow =>
      dsimp only
      split <;> exact ⟨rfl, rfl⟩

namespace State

variable [LinearOrder P] [LinearOrder T] {s : State P T S B W H J} {peer : P}

/-- The messages of a peer that are processed when its data arrives in these chunks, each
at a time. -/
def processed (s : State P T S B W H J) (peer : P) : List (Bytes × ℕ) → List (Rpc T)
  | [] => []
  | (data, now) :: rest =>
    ((s.clients.get peer).bind fun client => (client.takeIn env data).2).toList ++
      processed (s.reduceIncomingData env peer data now) peer rest

def afterChunks (s : State P T S B W H J) (peer : P) (chunks : List (Bytes × ℕ)) : State P T S B W H J :=
  chunks.foldl (fun s chunk => s.reduceIncomingData env peer chunk.1 chunk.2) s

theorem bufferOf_reduceIncomingData {client : ClientState T S} (found : s.clients.get peer = some client)
    (data : Bytes) (now : ℕ) : (s.reduceIncomingData env peer data now).bufferOf peer =
      some (feed env.decodeLengthDelimited client.buffer data).1 := by
  rw [← (client.takeIn_eq_feed env data).1, reduceIncomingData, found]
  dsimp only
  split
  · rw [(Leaves.process ..).buffers]
    simp [bufferOf, OrdMap.get_insert]
  · simp [bufferOf, OrdMap.get_insert]

theorem processed_eq_feedAll {pending : Bytes} (chunks : List (Bytes × ℕ)) (buffer : s.bufferOf peer = some pending) :
    s.processed env peer chunks = (feedAll env.decodeLengthDelimited pending (chunks.map Prod.fst)).1 ∧
      (s.afterChunks env peer chunks).bufferOf peer =
        some (feedAll env.decodeLengthDelimited pending (chunks.map Prod.fst)).2 := by
  induction chunks generalizing s pending with
  | nil => exact ⟨rfl, buffer⟩
  | cons chunk chunks ih =>
    obtain ⟨client, found, rfl⟩ := map_eq_some_iff.1 buffer
    obtain ⟨log, last⟩ := ih (bufferOf_reduceIncomingData env found chunk.1 chunk.2)
    refine ⟨?_, last⟩
    rw [processed, log, found, bind_some, (client.takeIn_eq_feed env chunk.1).2]
    rfl

variable {env}

/-- **Framing**: for messages cut into chunks, those processed are exactly those sent, and
    the buffer is empty in the end, if and only if each message came in one or two chunks
    of its own. -/
theorem incoming_data_iff {IsMessage : Rpc T → Prop} {encode : Rpc T → Bytes}
    (codec : Delimited env.decodeLengthDelimited IsMessage encode) (empty : s.bufferOf peer = some [])
    (messages : List (Rpc T)) (valid : ∀ rpc ∈ messages, IsMessage rpc) (chunks : List (Bytes × ℕ))
    (nonempty : ∀ chunk ∈ chunks, chunk.1 ≠ []) (cut : (chunks.map Prod.fst).flatten = messages.flatMap encode) :
    s.processed env peer chunks = messages ∧ (s.afterChunks env peer chunks).bufferOf peer = some [] ↔
      InPieces encode messages (chunks.map Prod.fst) := by
  obtain ⟨log, last⟩ := processed_eq_feedAll env chunks empty
  rw [← feedAll_iff codec valid (by simpa using nonempty) cut, log, last, some_inj]
  rw [Prod.ext_iff]

/-! A code of two messages. -/

def hello : Rpc ℕ := { subscriptions := [⟨some true, some 0⟩] }

def sampleEncode (rpc : Rpc ℕ) : Bytes := if rpc = hello then [3, 1, 2, 3] else [0]

def sampleDecode (slice : Bytes) : Except DecodeError (Rpc ℕ) :=
  if [3, 1, 2, 3] <+: slice then .ok hello
  else if [0] <+: slice then .ok {}
  else if slice <+: [3, 1, 2, 3] then .error .bufferUnderflow
  else .error .other

theorem sampleDecode_delimited : Delimited sampleDecode (fun rpc => rpc = hello ∨ rpc = {}) sampleEncode := by
  have first : sampleEncode hello = [3, 1, 2, 3] := by decide
  have second : sampleEncode {} = [0] := by decide
  constructor
  · intro slice rpc
    unfold sampleDecode
    constructor
    · intro ok
      split at ok
      · next h =>
        cases ok
        exact ⟨.inl rfl, first ▸ h⟩
      · split at ok
        · next h =>
          cases ok
          exact ⟨.inr rfl, second ▸ h⟩
        · split at ok <;> cases ok
    · rintro ⟨rfl | rfl, ⟨rest, rfl⟩⟩
      · rw [first, if_pos (prefix_append ..)]
      · rw [second, if_neg (by simp), if_pos (prefix_append ..)]
  · intro slice
    unfold sampleDecode
    constructor
    · intro short
      split at short
      · cases short
      · next h =>
        split at short
        · cases short
        · split at short
          · next part => exact ⟨hello, .inl rfl, first ▸ part, fun eq => h (by rw [eq, first])⟩
          · cases short
    · rintro ⟨rpc, rfl | rfl, part, ne⟩
      · rw [first] at part ne
        rw [if_neg fun h => ne (part.eq_of_length_le h.length_le), if_neg, if_pos part]
        intro zero
        exact absurd (zero.trans part) (by decide)
      · rw [second] at part ne
        obtain rfl : slice = [] := by
          rcases slice with _ | ⟨b, rest⟩
          · rfl
          · exact absurd (part.eq_of_length_le (by simp)) ne
        decide

/-- Functions of no interest, but for the decoder. -/
def sampleEnv : Env ℕ ℕ ℕ ℕ ℕ ℕ ℕ where
  topic := 0
  noTopic := 1
  decodeLengthDelimited := sampleDecode
  sourceFromBytes bytes := some bytes.length
  toRawBytes id := [UInt8.ofNat (ofLex id).1, UInt8.ofNat (ofLex id).2]
  tryHash block := if block = 0 then none else some block
  jobId work := work
  encodeMessage content :=
    match content with
    | .newState block => some [UInt8.ofNat block]
    | .snarkPoolDiff _ => none
    | .transactionPoolDiff => some []
  webrtcSource bytes := (bytes.length, bytes.length)
  sourceToBytes source := List.replicate source 0
  sign _ _ := some []

def oneClient : State ℕ ℕ ℕ ℕ ℕ ℕ ℕ := { State.empty with clients := OrdMap.empty.insert 7 ⟨none, {}, {}, [], []⟩ }

/-- A message in two chunks and one in a chunk of its own are both processed. -/
theorem incoming_data_two :
    oneClient.processed sampleEnv 7 [([3, 1], 0), ([2, 3], 1), ([0], 2)] = [hello, {}] ∧
      (oneClient.afterChunks sampleEnv 7 [([3, 1], 0), ([2, 3], 1), ([0], 2)]).bufferOf 7 = some [] :=
  (incoming_data_iff sampleDecode_delimited rfl [hello, {}] (by decide) _ (by decide) (by decide)).2
    (.halves rfl (.whole .nil))

/-- A message cut in three is lost, and so is a message that comes in one chunk with
    another one before it. -/
theorem incoming_data_lost : oneClient.processed sampleEnv 7 [([3], 0), ([1, 2], 1), ([3], 2)] = [] ∧
      oneClient.processed sampleEnv 7 [([0, 3, 1, 2, 3], 0)] = [{}] ∧
      (oneClient.afterChunks sampleEnv 7 [([0, 3, 1, 2, 3], 0)]).bufferOf 7 = some [] ∧
      [3] ++ [1, 2] ++ [3] = sampleEncode hello ∧ [0, 3, 1, 2, 3] = sampleEncode {} ++ sampleEncode hello := by
  decide

end State

end MinaRust.Pubsub
