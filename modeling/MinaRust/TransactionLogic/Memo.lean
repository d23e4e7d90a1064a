/-
  The memo of a transaction (`scan_state/transaction_logic/mod.rs`): a tag, the length of the
  text, and the text in 32 bytes.

  A text is padded by characters and cut by bytes.  The length that is used to display a
  memo is the byte that was received.
-/
import MinaRust.Lib.Checked
import MinaRust.Lib.Utf8

namespace MinaRust.TransactionLogic

open List Utf8

structure Memo where
  bytes : List UInt8
  length_bytes : bytes.length = 34

namespace Memo

def BYTES_TAG : UInt8 := 0x01

def DIGEST_LENGTH : ℕ := 32

inductive Panic
  /-- `copy_from_slice` with another length -/
  | copyFromSlice
  /-- a range that ends behind the memo -/
  | sliceIndex
  /-- `to_string` with a `Display` that returns an error -/
  | displayError
  deriving DecidableEq, Repr

/-- The string, padded with NUL to 32 characters and cut to 32 bytes. -/
def digest (s : List Char) : List UInt8 :=
  let padded := encode (s ++ replicate (32 - s.length) '\x00')
  padded.take (min padded.length DIGEST_LENGTH)

def fromStr (s : List Char) : Except Panic Memo :=
  let length := UInt8.ofNat (min (encode s).length DIGEST_LENGTH)
  if h : (digest s).length = 32 then .ok ⟨BYTES_TAG :: length :: digest s, congrArg (· + 2) h⟩
  else .error .copyFromSlice

def tag (memo : Memo) : UInt8 := memo.bytes.getD 0 0

def length (memo : Memo) : ℕ := (memo.bytes.getD 1 0).toNat

def trimEnd (s : List Char) : List Char := s.rdropWhile (· == '\x00')

def fmt (memo : Memo) : Except Panic (Option (List Char)) :=
  if memo.tag ≠ BYTES_TAG then .ok none
  else if 2 + memo.length ≤ memo.bytes.length then
    .ok (some (trimEnd (fromUtf8Lossy ((memo.bytes.drop 2).take memo.length))))
  else .error .sliceIndex

/-- `to_string`, which panics when `fmt` returns an error. -/
def toString (memo : Memo) : Except Panic (List Char) :=
  memo.fmt >>= fun
  | none => .error .displayError
  | some text => .ok text

theorem length_digest (s : List Char) : (digest s).length = 32 := by
  have pad := length_le_encode (s ++ replicate (32 - s.length) '\x00')
  rw [length_append, length_replicate] at pad
  rw [digest, length_take, DIGEST_LENGTH]
  omega

theorem take_digest (s : List Char) : (digest s).take (min (encode s).length 32) = (encode s).take 32 := by
  rw [digest, take_take, encode_append, length_append, DIGEST_LENGTH, take_append_of_le_length (by omega)]
  by_cases short : (encode s).length ≤ 32
  · rw [take_of_length_le short, take_of_length_le (by omega)]
  · rw [show min (min _ _) (min _ _) = 32 by omega]

theorem toString_eq {memo : Memo} (tag : memo.tag = BYTES_TAG) (short : memo.length ≤ 32) :
    memo.toString = .ok (trimEnd (fromUtf8Lossy ((memo.bytes.drop 2).take memo.length))) := by
  have := memo.length_bytes
  rw [toString, fmt, if_neg (not_not.2 tag), if_pos (by omega)]
  rfl

theorem fromStr_toString (s : List Char) : ∃ memo, fromStr s = .ok memo ∧
    memo.toString = .ok (trimEnd (fromUtf8Lossy ((encode s).take 32))) := by
  have length : (UInt8.ofNat (min (encode s).length DIGEST_LENGTH)).toNat = min (encode s).length 32 :=
    Nat.mod_eq_of_lt (Nat.lt_of_le_of_lt (Nat.min_le_right _ _) (by decide))
  let memo : Memo := ⟨BYTES_TAG :: UInt8.ofNat (min (encode s).length DIGEST_LENGTH) :: digest s,
    congrArg (· + 2) (length_digest s)⟩
  refine ⟨memo, dif_pos (length_digest s), ?_⟩
  have short : memo.length = min (encode s).length 32 := length
  rw [toString_eq rfl (short.trans_le (Nat.min_le_right _ _)), short, ← take_digest]
  rfl

/-- **Texts of memos**: a string of at most 32 bytes comes back, of a longer one the
    characters that lie in the first 32 bytes, with a replacement for one that is cut, and
    the memos that can be displayed are those with the tag of bytes and a length of at most
    32. -/
theorem display_iff (s : List Char) (memo : Memo) :
    ((encode s).length ≤ 32 → s.getLast? ≠ some '\x00' →
      ∃ memo, fromStr s = .ok memo ∧ memo.toString = .ok s) ∧
    (32 < (encode s).length → ∃ memo p, fromStr s = .ok memo ∧ p <+: s ∧
      ((encode p).length = 32 ∧ memo.toString = .ok (trimEnd p) ∨
        (∃ c, p ++ [c] <+: s ∧ (encode p).length < 32 ∧ 32 < (encode (p ++ [c])).length) ∧
          memo.toString = .ok (trimEnd (p ++ [replacement])))) ∧
    ((∃ text, memo.fmt = .ok text) ↔ memo.tag ≠ BYTES_TAG ∨ memo.length ≤ 32) ∧
      ((∃ text, memo.toString = .ok text) ↔ memo.tag = BYTES_TAG ∧ memo.length ≤ 32) := by
  refine ⟨fun short last => ?_, fun long => ?_, ?_⟩
  · obtain ⟨memo, made, shown⟩ := fromStr_toString s
    refine ⟨memo, made, shown.trans ?_⟩
    rw [take_of_length_le short, fromUtf8Lossy_encode, trimEnd, rdropWhile_eq_self_iff.2]
    intro ne nul
    exact last ((getLast?_eq_some_getLast ne).trans (congrArg some (beq_iff_eq.1 nul)))
  · obtain ⟨memo, made, shown⟩ := fromStr_toString s
    obtain ⟨p, front, whole | cut⟩ := fromUtf8Lossy_take long.le
    · exact ⟨memo, p, made, front, .inl ⟨whole.1, by rw [shown, whole.2]⟩⟩
    · exact ⟨memo, p, made, front, .inr ⟨cut.1, by rw [shown, cut.2]⟩⟩
  · have size := memo.length_bytes
    unfold toString fmt
    split_ifs with other fits
    · simp [other]
    · simp [not_not.1 other, show memo.length ≤ 32 by omega]
    · simp [not_not.1 other, show ¬memo.length ≤ 32 by omega]

/-- A received memo whose length byte is 33. -/
theorem display_panics : ∃ memo : Memo, memo.fmt = .error .sliceIndex :=
  ⟨⟨BYTES_TAG :: 33 :: replicate 32 0, rfl⟩, rfl⟩

end Memo

end MinaRust.TransactionLogic
