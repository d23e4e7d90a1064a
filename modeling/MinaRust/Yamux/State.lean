/-
  Yamux: frames, the state of one multiplexed connection and the parser that takes frames
  off the received bytes (`p2p_network_yamux_state.rs`).

  A `u32` of the wire is an element of `U32`; the windows of a stream are numbers with the
  saturating operations of the source.
-/
import MinaRust.Lib.OrdMap

namespace MinaRust.Yamux

abbrev U32 := Fin 4294967296

instance neZeroU32 : NeZero 4294967296 := ⟨by decide⟩

abbrev U32.MAX : ℕ := 4294967295

abbrev StreamId := U32

/-- The bytes of a payload. -/
abbrev Data := List UInt8

def INITIAL_RECV_BUFFER_CAPACITY : ℕ := 0x40000

def INITIAL_WINDOW_SIZE : ℕ := INITIAL_RECV_BUFFER_CAPACITY

def MAX_WINDOW_SIZE : ℕ := 16 * 1024 * 1024

/-- `Limit<usize>`: a bound, or none. -/
inductive Limit where
  | some (n : ℕ)
  | unlimited
  deriving DecidableEq, Repr

def Limit.exceededBy : Limit → ℕ → Bool
  | .some bound, n => decide (bound < n)
  | .unlimited, _ => false

/-! ## Frames -/

structure YamuxFlags where
  SYN : Bool
  ACK : Bool
  FIN : Bool
  RST : Bool
  deriving DecidableEq, Repr

namespace YamuxFlags

def empty : YamuxFlags := ⟨false, false, false, false⟩

variable (flags : YamuxFlags)

def bits : ℕ :=
  flags.SYN.toNat + 2 * flags.ACK.toNat + 4 * flags.FIN.toNat + 8 * flags.RST.toNat

def fromBits (n : ℕ) : Option YamuxFlags :=
  if n < 16 then some ⟨n.testBit 0, n.testBit 1, n.testBit 2, n.testBit 3⟩ else none

theorem bits_lt : flags.bits < 16 := by
  rcases flags with ⟨_ | _, _ | _, _ | _, _ | _⟩ <;> decide

@[simp] theorem fromBits_bits : fromBits flags.bits = some flags := by
  rcases flags with ⟨_ | _, _ | _, _ | _, _ | _⟩ <;> decide

end YamuxFlags

inductive YamuxSessionError where
  | protocol
  | internal
  deriving DecidableEq, Repr

inductive YamuxFrameInner where
  | data (data : Data)
  | windowUpdate (difference : U32)
  /-- The number is the `opaque` value that the answer repeats. -/
  | ping (value : U32)
  /-- `none` is `Ok(())`. -/
  | goAway (res : Option YamuxSessionError)
  deriving DecidableEq, Repr

structure YamuxFrame where
  flags : YamuxFlags
  streamId : StreamId
  inner : YamuxFrameInner
  deriving DecidableEq, Repr

def toBe16 (n : ℕ) : Data := [UInt8.ofNat (n / 256), UInt8.ofNat n]

def toBe32 (n : U32) : Data :=
  [UInt8.ofNat (n / 16777216), UInt8.ofNat (n / 65536), UInt8.ofNat (n / 256), UInt8.ofNat n]

def fromBe16 (a b : UInt8) : ℕ := a.toNat * 256 + b.toNat

def fromBe32 (a b c d : UInt8) : U32 :=
  ⟨a.toNat * 16777216 + b.toNat * 65536 + c.toNat * 256 + d.toNat, by
    have := a.toNat_lt
    have := b.toNat_lt
    have := c.toNat_lt
    have := d.toNat_lt
    omega⟩

theorem fromBe16_toBe16 {n : ℕ} (lt : n < 65536) : fromBe16 (UInt8.ofNat (n / 256)) (UInt8.ofNat n) = n := by
  simp only [fromBe16, UInt8.toNat_ofNat']
  omega

theorem fromBe32_toBe32 (n : U32) :
    fromBe32 (UInt8.ofNat (n / 16777216)) (UInt8.ofNat (n / 65536)) (UInt8.ofNat (n / 256))
      (UInt8.ofNat n) = n := by
  have := n.isLt
  refine Fin.ext ?_
  simp only [fromBe32, UInt8.toNat_ofNat']
  omega

namespace YamuxFrame

variable (frame : YamuxFrame)

def kind : UInt8 :=
  match frame.inner with
  | .data _ => 0
  | .windowUpdate _ => 1
  | .ping _ => 2
  | .goAway _ => 3

/-- The last four bytes of the header; the length of data is cut to a `u32`. -/
def lastWord : U32 :=
  match frame.inner with
  | .data data => Fin.ofNat _ data.length
  | .windowUpdate difference => difference
  | .ping value => value
  | .goAway none => 0
  | .goAway (some .protocol) => 1
  | .goAway (some .internal) => 2

def payload : Data :=
  match frame.inner with
  | .data data => data
  | _ => []

def intoBytes : Data :=
  0 :: frame.kind :: (toBe16 frame.flags.bits ++ toBe32 frame.streamId ++ toBe32 frame.lastWord) ++
    frame.payload

def len : ℕ := frame.payload.length

def lenAsU32 : ℕ := min frame.len U32.MAX

/-- Keep the first `pos` bytes of a longer payload; the rest is a frame of its
own that takes over `FIN`. -/
def splitAt (pos : ℕ) : YamuxFrame × Option YamuxFrame :=
  match frame.inner with
  | .data data =>
    if data.length ≤ pos then (frame, none)
    else
      ({ frame with
          flags := { frame.flags with FIN := false }
          inner := .data (data.take pos) },
        some
          { frame with
            flags := { frame.flags with SYN := false, ACK := false }
            inner := .data (data.drop pos) })
  | _ => (frame, none)

end YamuxFrame

/-! ## State -/

structure YamuxStreamState where
  incoming : Bool
  synSent : Bool
  established : Bool
  writable : Bool
  windowTheirs : ℕ
  windowOurs : ℕ
  maxWindowSize : ℕ
  pending : List YamuxFrame
  deriving DecidableEq, Repr

def YamuxStreamState.default : YamuxStreamState :=
  ⟨false, false, false, false, INITIAL_WINDOW_SIZE, INITIAL_WINDOW_SIZE, INITIAL_WINDOW_SIZE, []⟩

def YamuxStreamState.accepted : YamuxStreamState := { default with incoming := true }

inductive YamuxFrameParseError where
  | version (v : UInt8)
  | flags (bits : ℕ)
  | type (t : UInt8)
  | errorCode (code : U32)
  deriving DecidableEq, Repr

/-- How a session ended: by a result, or by bytes that are no frame. -/
inductive Terminated where
  | res (res : Option YamuxSessionError)
  | err (err : YamuxFrameParseError)
  deriving DecidableEq, Repr

structure Buffer where
  bytes : Data
  capacity : ℕ
  deriving DecidableEq, Repr

structure P2pNetworkYamuxState where
  messageSizeLimit : Limit
  pendingOutgoingLimit : Limit
  buffer : Buffer
  incoming : List YamuxFrame
  streams : OrdMap StreamId YamuxStreamState
  terminated : Option Terminated

namespace P2pNetworkYamuxState

def init (messageSizeLimit pendingOutgoingLimit : Limit) : P2pNetworkYamuxState where
  messageSizeLimit := messageSizeLimit
  pendingOutgoingLimit := pendingOutgoingLimit
  buffer := ⟨[], 0⟩
  incoming := []
  streams := .empty
  terminated := none

variable (s : P2pNetworkYamuxState)

def setErr (err : YamuxFrameParseError) : P2pNetworkYamuxState :=
  { s with terminated := some (.err err) }

def setRes (res : Option YamuxSessionError) : P2pNetworkYamuxState :=
  { s with terminated := some (.res res) }

def pushIncoming (frame : YamuxFrame) : P2pNetworkYamuxState :=
  { s with incoming := s.incoming ++ [frame] }

/-! ## Parsing -/

/-- The part of `try_parse_frame` after the header: `b` is its last word, `rest`
what the buffer holds behind it. -/
def parseInner (flags : YamuxFlags) (streamId : StreamId) (kind : UInt8) (b : U32) (rest : Data) :
    P2pNetworkYamuxState × Option ℕ :=
  match kind.toNat with
  | 0 =>
    if s.messageSizeLimit.exceededBy b then (s.setRes (some .internal), none)
    else if b ≤ rest.length then
      (s.pushIncoming ⟨flags, streamId, .data (rest.take b)⟩, some (12 + b))
    else (s, none)
  | 1 => (s.pushIncoming ⟨flags, streamId, .windowUpdate b⟩, some 12)
  | 2 => (s.pushIncoming ⟨flags, streamId, .ping b⟩, some 12)
  | 3 =>
    match b.val with
    | 0 => (s.pushIncoming ⟨flags, streamId, .goAway none⟩, some 12)
    | 1 => (s.pushIncoming ⟨flags, streamId, .goAway (some .protocol)⟩, some 12)
    | 2 => (s.pushIncoming ⟨flags, streamId, .goAway (some .internal)⟩, some 12)
    | _ => (s.setErr (.errorCode b), none)
  | _ => (s.setErr (.type kind), none)

/-- Parse a frame at `offset`; the number of bytes it took, if there was one. -/
def tryParseFrame (offset : ℕ) : P2pNetworkYamuxState × Option ℕ :=
  match s.buffer.bytes.drop offset with
  | version :: kind :: f₀ :: f₁ :: i₀ :: i₁ :: i₂ :: i₃ :: b₀ :: b₁ :: b₂ :: b₃ :: rest =>
    if version ≠ 0 then (s.setErr (.version version), none)
    else
      match YamuxFlags.fromBits (fromBe16 f₀ f₁) with
      | none => (s.setErr (.flags (fromBe16 f₀ f₁)), none)
      | some flags =>
        s.parseInner flags (fromBe32 i₀ i₁ i₂ i₃) kind (fromBe32 b₀ b₁ b₂ b₃) rest
  | _ => (s, none)

/-- A frame takes at least twelve bytes, so that the length of the buffer bounds the rounds. -/
def parseLoop : ℕ → P2pNetworkYamuxState → ℕ → P2pNetworkYamuxState × ℕ
  | 0, s, offset => (s, offset)
  | fuel + 1, s, offset =>
    match s.tryParseFrame offset with
    | (s', some consumed) => parseLoop fuel s' (offset + consumed)
    | (s', none) => (s', offset)

section
-- `reserve` and `extend_from_slice` choose the new capacity: from the old one and what is needed
variable (grow : ℕ → ℕ → ℕ)

variable (s : P2pNetworkYamuxState)

/-- Both branches keep what follows `offset`; a large buffer with little left is replaced. -/
def shiftAndCompactBuffer (offset : ℕ) : P2pNetworkYamuxState :=
  let newLen := s.buffer.bytes.length - offset
  if INITIAL_RECV_BUFFER_CAPACITY * 2 < s.buffer.capacity ∧ newLen < INITIAL_RECV_BUFFER_CAPACITY / 2 then
    { s with buffer := ⟨s.buffer.bytes.drop offset, INITIAL_RECV_BUFFER_CAPACITY⟩ }
  else
    -- `copy_within(offset.., 0)` leaves the old bytes behind what it moved; `truncate` drops them
    let moved := s.buffer.bytes.drop offset ++ s.buffer.bytes.drop newLen
    { s with buffer := ⟨moved.take newLen, s.buffer.capacity⟩ }

def parseFrames : P2pNetworkYamuxState :=
  let (s', offset) := parseLoop (s.buffer.bytes.length + 1) s 0
  s'.shiftAndCompactBuffer offset

variable (data : Data)

def extendBuffer : P2pNetworkYamuxState :=
  let reserved :=
    if s.buffer.capacity = 0 then grow s.buffer.capacity INITIAL_RECV_BUFFER_CAPACITY
    else s.buffer.capacity
  let needed := s.buffer.bytes.length + data.length
  { s with
    buffer := ⟨s.buffer.bytes ++ data, if reserved < needed then grow reserved needed else reserved⟩ }

def receive : P2pNetworkYamuxState :=
  (s.extendBuffer grow data).parseFrames

end

end P2pNetworkYamuxState

end MinaRust.Yamux
