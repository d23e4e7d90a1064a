/-
  Texts in UTF-8, and lossy decoding.

  `fromUtf8Lossy` puts one replacement character for a byte that begins no character, and
  for a longest part of the bytes that begins a character but does not complete it.
-/
import Mathlib

namespace MinaRust.Utf8

open List

def encode (s : List Char) : List UInt8 := s.flatMap String.utf8EncodeChar

/-- The length of a character by its first byte; `0` if no character begins with it. -/
def charWidth (b : UInt8) : ℕ :=
  if b < 0x80 then 1 else if b < 0xC2 then 0 else if b < 0xE0 then 2 else if b < 0xF0 then 3
  else if b < 0xF5 then 4 else 0

def isCont (x : UInt8) : Bool := decide (0x80 ≤ x ∧ x < 0xC0)

def isSecond (b x : UInt8) : Bool :=
  decide ((0x80 ≤ x ∧ x < 0xC0) ∧ (b = 0xE0 → 0xA0 ≤ x) ∧ (b = 0xED → x < 0xA0) ∧
    (b = 0xF0 → 0x90 ≤ x) ∧ (b = 0xF4 → x < 0x90))

def chunk (b : UInt8) (rest : List UInt8) : ℕ :=
  match rest.take (charWidth b - 1) with
  | [] => 1
  | x :: xs => if isSecond b x then 2 + (xs.takeWhile isCont).length else 1

def replacement : Char := '�'

def fromUtf8Lossy : List UInt8 → List Char
  | [] => []
  | b :: rest =>
    (if chunk b rest = charWidth b then
      ((b :: rest).toByteArray.utf8DecodeChar? 0).getD replacement else replacement) ::
      fromUtf8Lossy (rest.drop (chunk b rest - 1))
  termination_by bytes => bytes.length
  decreasing_by simp

/-! ## One character -/

theorem utf8EncodeChar_cases (c : Char) : ∃ b tail, String.utf8EncodeChar c = b :: tail ∧
    charWidth b = tail.length + 1 ∧ (∀ x ∈ tail.head?, isSecond b x = true) ∧ ∀ x ∈ tail, isCont x = true := by
  have valid : c.val.toNat < 0xd800 ∨ 0xdfff < c.val.toNat ∧ c.val.toNat < 0x110000 := c.valid
  unfold String.utf8EncodeChar
  generalize c.val.toNat = v at *
  dsimp only
  split_ifs with one two three
  all_goals refine ⟨_, _, rfl, ?_, ?_, ?_⟩
  all_goals simp [charWidth, isSecond, isCont, UInt8.lt_iff_toNat_lt, UInt8.le_iff_toNat_le, ← UInt8.toNat_inj]
  all_goals first | omega | split_ifs <;> omega

theorem chunk_eq {b : UInt8} {tail rest part : List UInt8} (second : ∀ x ∈ tail.head?, isSecond b x = true)
    (cont : ∀ x ∈ tail, isCont x = true) (taken : rest.take (charWidth b - 1) = part) (front : part <+: tail) :
    chunk b rest = part.length + 1 := by
  rw [chunk, taken]
  cases part with
  | nil => rfl
  | cons x xs =>
    obtain ⟨more, rfl⟩ := front
    have all : xs.takeWhile isCont = xs := takeWhile_eq_self_iff.2 fun y hy => cont y (by simp [hy])
    simp only [if_pos (second x rfl), all, length_cons]
    omega

theorem fromUtf8Lossy_char (c : Char) (more : List UInt8) :
    fromUtf8Lossy (String.utf8EncodeChar c ++ more) = c :: fromUtf8Lossy more := by
  have decoded : ((String.utf8EncodeChar c ++ more).toByteArray.utf8DecodeChar? 0) = some c := by
    rw [List.toByteArray_append]
    exact ByteArray.utf8DecodeChar?_utf8EncodeChar_append
  obtain ⟨b, tail, eq, width, second, cont⟩ := utf8EncodeChar_cases c
  have whole : chunk b (tail ++ more) = tail.length + 1 :=
    chunk_eq second cont (by rw [width]; simp) prefix_rfl
  rw [eq, cons_append] at decoded ⊢
  rw [fromUtf8Lossy, whole, width, if_pos rfl, decoded]
  simp

theorem fromUtf8Lossy_cut {c : Char} {n : ℕ} (pos : 0 < n) (lt : n < (String.utf8EncodeChar c).length) :
    fromUtf8Lossy ((String.utf8EncodeChar c).take n) = [replacement] := by
  obtain ⟨b, tail, eq, width, second, cont⟩ := utf8EncodeChar_cases c
  obtain ⟨n, rfl⟩ := Nat.exists_eq_add_one.2 pos
  rw [eq, length_cons] at lt
  have front := take_prefix n tail
  have part : chunk b (tail.take n) = (tail.take n).length + 1 := by
    refine chunk_eq second cont ?_ front
    rw [width, Nat.add_sub_cancel, take_take, min_eq_right (by omega)]
  rw [eq, take_succ_cons, fromUtf8Lossy, part, width, if_neg (by rw [length_take]; omega),
    Nat.add_sub_cancel, drop_length, fromUtf8Lossy]

/-! ## Texts -/

theorem encode_append (s t : List Char) : encode (s ++ t) = encode s ++ encode t := flatMap_append

theorem encode_cons (c : Char) (s : List Char) : encode (c :: s) = String.utf8EncodeChar c ++ encode s := rfl

theorem length_le_encode (s : List Char) : s.length ≤ (encode s).length := by
  induction s with
  | nil => exact Nat.le_refl 0
  | cons c s ih =>
    rw [encode_cons, length_cons, length_append, String.length_utf8EncodeChar]
    have := c.utf8Size_pos
    omega

theorem fromUtf8Lossy_encode_append (s : List Char) (more : List UInt8) :
    fromUtf8Lossy (encode s ++ more) = s ++ fromUtf8Lossy more := by
  induction s with
  | nil => rfl
  | cons c s ih => rw [encode_cons, append_assoc, fromUtf8Lossy_char, ih, cons_append]

theorem fromUtf8Lossy_encode (s : List Char) : fromUtf8Lossy (encode s) = s := by
  have := fromUtf8Lossy_encode_append s []
  rwa [append_nil, fromUtf8Lossy, append_nil] at this

/-- **The first bytes of a text decode to the characters that they complete**, and a
    replacement for the one that they cut. -/
theorem fromUtf8Lossy_take : ∀ {s : List Char} {n : ℕ}, n ≤ (encode s).length → ∃ p, p <+: s ∧
    ((encode p).length = n ∧ fromUtf8Lossy ((encode s).take n) = p ∨
      (∃ c, p ++ [c] <+: s ∧ (encode p).length < n ∧ n < (encode (p ++ [c])).length) ∧
        fromUtf8Lossy ((encode s).take n) = p ++ [replacement])
  | _, 0, _ => ⟨[], nil_prefix, .inl ⟨rfl, by rw [take_zero, fromUtf8Lossy]⟩⟩
  | [], n + 1, le => absurd le (Nat.not_succ_le_zero n)
  | c :: s, n + 1, le => by
    rw [encode_cons, length_append] at le
    by_cases cut : n + 1 < (String.utf8EncodeChar c).length
    · refine ⟨[], nil_prefix, .inr ⟨⟨c, ⟨s, rfl⟩, Nat.succ_pos n, by simpa [encode] using cut⟩, ?_⟩⟩
      rw [encode_cons, take_append_of_le_length cut.le, fromUtf8Lossy_cut (Nat.succ_pos n) cut]
      rfl
    · obtain ⟨p, front, rest⟩ := fromUtf8Lossy_take (show n + 1 - (String.utf8EncodeChar c).length ≤ (encode s).length by omega)
      have first : (encode (c :: s)).take (n + 1) = String.utf8EncodeChar c ++
          (encode s).take (n + 1 - (String.utf8EncodeChar c).length) := by
        rw [encode_cons, take_append, take_of_length_le (by omega)]
      have length : ∀ t, (encode (c :: t)).length = (String.utf8EncodeChar c).length + (encode t).length := fun t => by
        rw [encode_cons, length_append]
      refine ⟨c :: p, cons_prefix_cons.2 ⟨rfl, front⟩, ?_⟩
      rw [first, fromUtf8Lossy_char, length]
      rcases rest with ⟨size, eq⟩ | ⟨⟨d, next, lt₁, lt₂⟩, eq⟩
      · exact .inl ⟨by omega, by rw [eq]⟩
      · refine .inr ⟨⟨d, cons_prefix_cons.2 ⟨rfl, next⟩, by omega, ?_⟩, by rw [eq]; rfl⟩
        rw [cons_append, length]
        omega

end MinaRust.Utf8
