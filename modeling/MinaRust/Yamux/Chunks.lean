/-
  Received bytes give the sent frames, however they were cut into chunks.

  Exactly the frames with payloads shorter than `2 ^ 32` bytes survive; the length of a
  longer one is cut to a `u32` in its header, and no parsed payload is that long.
-/
import MinaRust.Lib.Framing
import MinaRust.Yamux.State

namespace MinaRust.Yamux

open List Nat YamuxFrame

open Framing

/-! ## One frame -/

namespace YamuxFrame

variable (frame : YamuxFrame)

def header : Data :=
  0 :: frame.kind :: (toBe16 frame.flags.bits ++ toBe32 frame.streamId ++ toBe32 frame.lastWord)

theorem intoBytes_eq : frame.intoBytes = frame.header ++ frame.payload := rfl

@[simp] theorem length_header : frame.header.length = 12 := rfl

@[simp] theorem length_intoBytes : frame.intoBytes.length = 12 + frame.len := by
  rw [intoBytes_eq, length_append, length_header, len]

/-- The payload is within the limit and its length is a `u32`. -/
structure Carried (limit : Limit) (frame : YamuxFrame) : Prop where
  within : limit.exceededBy frame.len = false
  short : frame.len < 4294967296

end YamuxFrame

namespace P2pNetworkYamuxState

variable {s : P2pNetworkYamuxState} {frame : YamuxFrame} {offset : ℕ}

theorem tryParseFrame_short (short : (s.buffer.bytes.drop offset).length < 12) :
    s.tryParseFrame offset = (s, none) := by
  unfold tryParseFrame
  split
  · next eq =>
    rw [eq] at short
    simp only [length_cons] at short
    omega
  · rfl

theorem tryParseFrame_header {rest : Data} (at_ : s.buffer.bytes.drop offset = frame.header ++ rest) :
    s.tryParseFrame offset = s.parseInner frame.flags frame.streamId frame.kind frame.lastWord rest := by
  have flags := fromBe16_toBe16 (frame.flags.bits_lt.trans (by norm_num))
  simp [tryParseFrame, at_, header, toBe16, toBe32, cons_append, nil_append, ne_eq, not_true_eq_false, flags, YamuxFlags.fromBits_bits, fromBe32_toBe32]

/-- A data frame is queued once its whole payload is there, the others at once. -/
theorem parseInner_header (carried : frame.Carried s.messageSizeLimit) (rest : Data) :
    s.parseInner frame.flags frame.streamId frame.kind frame.lastWord rest =
      if frame.len ≤ rest.length then
        (s.pushIncoming (match frame.inner with
            | .data _ => { frame with inner := .data (rest.take frame.len) }
            | _ => frame), some (12 + frame.len))
      else (s, none) := by
  obtain ⟨flags, streamId, inner⟩ := frame
  cases inner with
  | data data =>
    have length : data.length % 4294967296 = data.length := mod_eq_of_lt carried.short
    have within : s.messageSizeLimit.exceededBy data.length = false := carried.within
    simp [parseInner, kind, lastWord, len, payload, length, within]
    rfl
  | windowUpdate difference => rfl
  | ping value => rfl
  | goAway res => rcases res with _ | _ | _ <;> rfl

theorem tryParseFrame_intoBytes (carried : frame.Carried s.messageSizeLimit) {rest : Data}
    (at_ : s.buffer.bytes.drop offset = frame.intoBytes ++ rest) :
    s.tryParseFrame offset = (s.pushIncoming frame, some frame.intoBytes.length) := by
  rw [intoBytes_eq, append_assoc] at at_
  rw [tryParseFrame_header at_, parseInner_header carried, length_intoBytes, if_pos]
  · obtain ⟨flags, streamId, inner⟩ := frame
    cases inner <;> simp [len, payload]
  · simp [len]

variable {rest : List YamuxFrame}

theorem tryParseFrame_waits (carried : ∀ frame ∈ rest, frame.Carried s.messageSizeLimit)
    (waits : Waits intoBytes rest (s.buffer.bytes.drop offset)) :
    s.tryParseFrame offset = (s, none) := by
  cases rest with
  | nil => exact tryParseFrame_short (by rw [show s.buffer.bytes.drop offset = [] from waits]; decide)
  | cons frame rest =>
    by_cases short : (s.buffer.bytes.drop offset).length < 12
    · exact tryParseFrame_short short
    · -- the header is complete, the payload is not
      obtain ⟨part, lt⟩ := waits
      rw [length_intoBytes] at lt
      obtain ⟨got, at_⟩ : frame.header <+: s.buffer.bytes.drop offset :=
        prefix_of_prefix_length_le (prefix_append ..) part (not_lt.1 short)
      rw [← at_, length_append, length_header] at lt
      rw [tryParseFrame_header at_.symm, parseInner_header (carried frame mem_cons_self), if_neg (by omega)]

/-! ## One chunk -/

/-- `frames` were queued behind `before`, and nothing else changed but the buffer. -/
structure Queued (s₀ : P2pNetworkYamuxState) (s : P2pNetworkYamuxState) (frames : List YamuxFrame) :
    Prop where
  incoming : s.incoming = s₀.incoming ++ frames
  limit : s.messageSizeLimit = s₀.messageSizeLimit
  terminated : s.terminated = s₀.terminated

variable {done : List YamuxFrame}

theorem parseLoop_eq {p : Data} {fuel : ℕ} (carried : ∀ frame ∈ done ++ rest, frame.Carried s.messageSizeLimit)
    (at_ : s.buffer.bytes.drop offset = done.flatMap intoBytes ++ p)
    (waits : Waits intoBytes rest p) (enough : done.length < fuel) :
    parseLoop fuel s offset = ({ s with incoming := s.incoming ++ done },
        offset + (done.flatMap intoBytes).length) := by
  induction done generalizing s offset fuel with
  | nil =>
    obtain ⟨fuel, rfl⟩ := exists_eq_succ_of_ne_zero enough.ne'
    rw [flatMap_nil, nil_append] at at_
    rw [parseLoop, tryParseFrame_waits carried (at_ ▸ waits)]
    simp
  | cons frame done ih =>
    obtain ⟨fuel, rfl⟩ := exists_eq_succ_of_ne_zero (zero_lt_of_lt enough).ne'
    rw [flatMap_cons, append_assoc] at at_
    rw [parseLoop, tryParseFrame_intoBytes (carried frame (by simp)) at_]
    have next : (s.pushIncoming frame).buffer.bytes.drop (offset + frame.intoBytes.length) =
        done.flatMap intoBytes ++ p := by
      have dropped := congrArg (List.drop frame.intoBytes.length) at_
      rwa [drop_drop, drop_left] at dropped
    dsimp only
    rw [ih (s := s.pushIncoming frame) (fun f mem => carried f (mem_cons_of_mem _ mem)) next
      (lt_of_succ_lt_succ enough)]
    simp [pushIncoming, add_assoc]

theorem shiftAndCompactBuffer_eq (s : P2pNetworkYamuxState) (offset : ℕ) :
    ∃ capacity, s.shiftAndCompactBuffer offset =
      { s with buffer := ⟨s.buffer.bytes.drop offset, capacity⟩ } := by
  unfold shiftAndCompactBuffer
  dsimp only
  split
  · exact ⟨_, rfl⟩
  · refine ⟨s.buffer.capacity, ?_⟩
    rw [take_left' (by simp)]

theorem length_le_flatMap (frames : List YamuxFrame) :
    frames.length ≤ (frames.flatMap intoBytes).length := by
  induction frames with
  | nil => simp
  | cons frame frames ih =>
    rw [flatMap_cons, length_append, length_intoBytes, length_cons]
    omega

variable (grow : ℕ → ℕ → ℕ)

/-- A chunk queues the frames that it completes; the rest stays in the buffer. -/
theorem receive_has {s₀ : P2pNetworkYamuxState} {taken : List YamuxFrame} {p chunk p' : Data}
    (has : Queued s₀ s taken ∧ s.buffer.bytes = p)
    (carried : ∀ frame ∈ done ++ rest, frame.Carried s₀.messageSizeLimit)
    (eq : p ++ chunk = done.flatMap intoBytes ++ p') (waits : Waits intoBytes rest p') :
    Queued s₀ (s.receive grow chunk) (taken ++ done) ∧ (s.receive grow chunk).buffer.bytes = p' := by
  obtain ⟨queued, rfl⟩ := has
  have bytes : (s.extendBuffer grow chunk).buffer.bytes = done.flatMap intoBytes ++ p' := eq
  have enough : done.length < (s.extendBuffer grow chunk).buffer.bytes.length + 1 := by
    have := length_le_flatMap done
    rw [bytes, length_append]
    omega
  have loop := parseLoop_eq (s := s.extendBuffer grow chunk) (queued.limit ▸ carried) (drop_zero.trans bytes)
    waits enough
  rw [receive, parseFrames, loop, zero_add]
  obtain ⟨capacity, shifted⟩ := shiftAndCompactBuffer_eq
    { s.extendBuffer grow chunk with incoming := s.incoming ++ done }
    (done.flatMap intoBytes).length
  constructor
  · refine ⟨?_, ?_, ?_⟩
    · exact (congrArg incoming shifted).trans
        (by rw [queued.incoming, append_assoc])
    · exact (congrArg messageSizeLimit shifted).trans queued.limit
    · exact (congrArg terminated shifted).trans queued.terminated
  · refine (congrArg (fun s => s.buffer.bytes) shifted).trans ?_
    dsimp only
    rw [bytes, drop_left]

/-! ## Parsed payloads -/

/-- Only frames whose length is a `u32` were queued. -/
def Short (s s' : P2pNetworkYamuxState) : Prop :=
  ∃ frames, s'.incoming = s.incoming ++ frames ∧ ∀ frame ∈ frames, frame.len < 4294967296

theorem Short.refl (s : P2pNetworkYamuxState) : Short s s := ⟨[], by simp, nofun⟩

theorem Short.trans {s' s'' : P2pNetworkYamuxState} (first : Short s s') (second : Short s' s'') :
    Short s s'' := by
  obtain ⟨frames, eq, short⟩ := first
  obtain ⟨frames', eq', short'⟩ := second
  refine ⟨frames ++ frames', by rw [eq', eq, append_assoc], fun frame mem => ?_⟩
  exact (mem_append.1 mem).elim (short frame) (short' frame)

theorem short_pushIncoming (short : frame.len < 4294967296) : Short s (s.pushIncoming frame) :=
  ⟨[frame], rfl, by simpa using short⟩

theorem short_parseInner (s : P2pNetworkYamuxState) (flags : YamuxFlags) (streamId : StreamId)
    (kind : UInt8) (b : U32) (rest : Data) : Short s (s.parseInner flags streamId kind b rest).1 := by
  have length : (rest.take b).length < 4294967296 := by
    have := b.isLt
    rw [length_take]
    omega
  unfold parseInner
  repeat' split
  all_goals first
    | exact ⟨[], (append_nil _).symm, nofun⟩
    | exact short_pushIncoming length
    | exact short_pushIncoming (by norm_num [YamuxFrame.len, YamuxFrame.payload])

theorem short_tryParseFrame (s : P2pNetworkYamuxState) (offset : ℕ) : Short s (s.tryParseFrame offset).1 := by
  unfold tryParseFrame
  repeat' split
  all_goals first
    | exact ⟨[], (append_nil _).symm, nofun⟩
    | exact short_parseInner ..

theorem short_parseLoop (fuel : ℕ) (s : P2pNetworkYamuxState) (offset : ℕ) :
    Short s (parseLoop fuel s offset).1 := by
  induction fuel generalizing s offset with
  | zero => exact .refl s
  | succ fuel ih =>
    have first := short_tryParseFrame s offset
    rw [parseLoop]
    split <;> next eq =>
      rw [eq] at first
      first
        | exact first.trans (ih ..)
        | exact first

theorem short_receive (s : P2pNetworkYamuxState) (data : Data) : Short s (s.receive grow data) := by
  obtain ⟨frames, eq, short⟩ := short_parseLoop ((s.extendBuffer grow data).buffer.bytes.length + 1)
    (s.extendBuffer grow data) 0
  obtain ⟨capacity, shifted⟩ := shiftAndCompactBuffer_eq
    (parseLoop ((s.extendBuffer grow data).buffer.bytes.length + 1) (s.extendBuffer grow data) 0).1
    (parseLoop ((s.extendBuffer grow data).buffer.bytes.length + 1) (s.extendBuffer grow data) 0).2
  exact ⟨frames, (congrArg incoming shifted).trans eq, short⟩

theorem short_foldl (s : P2pNetworkYamuxState) (chunks : List Data) :
    Short s (chunks.foldl (receive grow) s) := by
  induction chunks generalizing s with
  | nil => exact .refl s
  | cons chunk chunks ih => exact (short_receive grow s chunk).trans (ih _)

/-! ## All chunks -/

/-- Frames within the size limit, cut into chunks at will, are queued as they
were sent and leave an empty buffer, exactly if each length is a `u32`. -/
theorem receive_chunks_iff (s : P2pNetworkYamuxState) (fresh : s.buffer.bytes = []) (frames : List YamuxFrame)
    (within : ∀ frame ∈ frames, s.messageSizeLimit.exceededBy frame.len = false) (chunks : List Data)
    (cut : chunks.flatten = frames.flatMap intoBytes) :
    ((chunks.foldl (receive grow) s).incoming = s.incoming ++ frames ∧
      (chunks.foldl (receive grow) s).buffer.bytes = [] ∧
      (chunks.foldl (receive grow) s).terminated = s.terminated) ↔
    ∀ frame ∈ frames, frame.len < 2 ^ 32 := by
  constructor
  · rintro ⟨incoming, -, -⟩
    obtain ⟨queued, eq, short⟩ := short_foldl grow s chunks
    rw [incoming] at eq
    exact append_cancel_left eq ▸ short
  · intro short
    have waits : Waits intoBytes frames [] := by
      cases frames with
      | nil => rfl
      | cons frame frames => exact ⟨List.nil_prefix, by simp⟩
    obtain ⟨queued, empty⟩ := foldl_feed (YamuxFrame.Carried s.messageSizeLimit) (receive grow)
      (fun s' taken p => Queued s s' taken ∧ s'.buffer.bytes = p)
      (fun has good eq waits => receive_has grow has good eq waits)
      ⟨⟨(append_nil _).symm, rfl, rfl⟩, fresh⟩
      (fun frame mem => ⟨within frame mem, short frame mem⟩) waits cut
    exact ⟨queued.incoming, empty, queued.terminated⟩

/-- A data frame cut inside its header and its payload, then a window update. -/
theorem receive_chunks_three : let frames : List YamuxFrame :=
      [⟨{ YamuxFlags.empty with SYN := true }, 1, .data [7, 8, 9]⟩, ⟨.empty, 1, .windowUpdate 5⟩]
    let bytes := frames.flatMap intoBytes
    let s := [bytes.take 5, (bytes.drop 5).take 9, bytes.drop 14].foldl (receive fun _ n => n)
      (init (.some 0x10000000) .unlimited)
    s.incoming = frames ∧ s.buffer.bytes = [] ∧ s.terminated = none :=
  (receive_chunks_iff (fun _ n => n) (init (.some 0x10000000) .unlimited) rfl
    [⟨{ YamuxFlags.empty with SYN := true }, 1, .data [7, 8, 9]⟩, ⟨.empty, 1, .windowUpdate 5⟩]
    (by decide) _ (by decide)).2 (by decide)

theorem exists_len (n : ℕ) : ∃ frame : YamuxFrame, frame.len = n :=
  ⟨⟨.empty, 1, .data (List.replicate n 0)⟩, length_replicate⟩

/-- Without a size limit, a payload of `2 ^ 32` bytes is not what the receiver queues. -/
theorem receive_chunks_long :
    ∃ frame : YamuxFrame, (init .unlimited .unlimited).messageSizeLimit.exceededBy frame.len = false ∧
      ([frame.intoBytes].foldl (receive fun _ n => n) (init .unlimited .unlimited)).incoming ≠ [frame] := by
  obtain ⟨frame, len⟩ := exists_len (2 ^ 32)
  refine ⟨frame, rfl, fun eq => ?_⟩
  obtain ⟨queued, incoming, short⟩ := short_foldl (fun _ n => n) (init .unlimited .unlimited) [frame.intoBytes]
  have mem : frame ∈ queued := by
    rw [show queued = [frame] from incoming.symm.trans eq]
    exact mem_singleton_self _
  exact (short frame mem).ne len

end P2pNetworkYamuxState

end MinaRust.Yamux
