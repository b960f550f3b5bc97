import Mathlib.Data.List.Basic
import Mathlib.Data.Nat.Basic

/-! # Text as bytes

A text is the list of its characters, and its bytes are their encodings one after the
other.  A character below 128 is one byte, its own number; every byte of any other
character is at least 128.  So a character below 128 is a byte also where bytes that
encode no text are read as one with replacements.
-/

namespace JackalopeFs.TextBytes

open List

def asBytes (text : List Char) : List UInt8 :=
  text.flatMap String.utf8EncodeChar

@[simp] theorem asBytes_nil : asBytes [] = [] :=
  rfl

@[simp] theorem asBytes_cons (c : Char) (text : List Char) :
    asBytes (c :: text) = String.utf8EncodeChar c ++ asBytes text :=
  rfl

theorem utf8EncodeChar_ascii {c : Char} (ascii : c.toNat < 128) :
    String.utf8EncodeChar c = [UInt8.ofNat c.toNat] := by
  exact if_pos (Nat.le_of_lt_succ ascii)

/-- The bytes of a character that is not a single byte have their top bit set. -/
theorem top_bit_of_mem_encode {c : Char} {b : UInt8} (wide : ¬c.toNat < 128)
    (mem : b ∈ String.utf8EncodeChar c) : 128 ≤ b.toNat := by
  have high : ∀ n : ℕ, 128 ≤ n → n < 256 → 128 ≤ (UInt8.ofNat n).toNat := by
    intro n low small
    rw [UInt8.toNat_ofNat_of_lt' small]
    exact low
  have v : ¬c.val.toNat ≤ 127 := fun le => wide (Nat.lt_succ_of_le le)
  unfold String.utf8EncodeChar at mem
  simp only [if_neg v] at mem
  split_ifs at mem <;> simp only [mem_cons, not_mem_nil, or_false] at mem
  · obtain rfl | rfl := mem <;> exact high _ (by omega) (by omega)
  · obtain rfl | rfl | rfl := mem <;> exact high _ (by omega) (by omega)
  · obtain rfl | rfl | rfl | rfl := mem <;> exact high _ (by omega) (by omega)

variable {text : List Char}

theorem mem_of_mem_asBytes {b : UInt8} (ascii : b.toNat < 128) (mem : b ∈ asBytes text) :
    ∃ c ∈ text, c.toNat = b.toNat := by
  obtain ⟨c, here, mem⟩ := mem_flatMap.mp mem
  refine ⟨c, here, ?_⟩
  by_cases small : c.toNat < 128
  · rw [utf8EncodeChar_ascii small, mem_singleton] at mem
    rw [mem, UInt8.toNat_ofNat_of_lt' (Nat.lt_trans small (by decide))]
  · exact absurd (top_bit_of_mem_encode small mem) (by omega)

theorem ascii_of_asBytes (ascii : ∀ b ∈ asBytes text, b.toNat < 128) {c : Char} (mem : c ∈ text) :
    c.toNat < 128 := by
  by_contra wide
  obtain ⟨b, first⟩ := exists_mem_of_ne_nil _ (String.utf8EncodeChar_ne_nil (c := c))
  have small := ascii b (mem_flatMap.mpr ⟨c, mem, first⟩)
  have := top_bit_of_mem_encode wide first
  omega

theorem asBytes_ascii (ascii : ∀ c ∈ text, c.toNat < 128) :
    asBytes text = text.map fun c => UInt8.ofNat c.toNat := by
  induction text with
  | nil => rfl
  | cons c _ ih =>
    rw [asBytes_cons, utf8EncodeChar_ascii (ascii c mem_cons_self),
      ih fun d mem => ascii d (mem_cons_of_mem _ mem)]
    rfl

theorem validateUTF8_ascii {bytes : List UInt8} (ascii : ∀ b ∈ bytes, b.toNat < 128) :
    bytes.toByteArray.validateUTF8 = true := by
  rw [ByteArray.validateUTF8_eq_true_iff]
  have chars : ∀ b ∈ bytes, (Char.ofNat b.toNat).toNat = b.toNat := by
    intro b mem
    have small := ascii b mem
    rw [Char.ofNat, dif_pos (.inl (by omega))]
    rfl
  refine ⟨bytes.map fun b => Char.ofNat b.toNat, ?_⟩
  have encoded : asBytes (bytes.map fun b => Char.ofNat b.toNat) = bytes := by
    rw [asBytes_ascii]
    · rw [map_map]
      conv_rhs => rw [← map_id bytes]
      exact map_congr_left fun b mem => by
        simp only [Function.comp_apply, chars b mem, UInt8.ofNat_toNat, id]
    · intro c mem
      obtain ⟨b, here, rfl⟩ := mem_map.mp mem
      rw [chars b here]
      exact ascii b here
  exact congrArg List.toByteArray encoded.symm

section Lossy

def replacement : Char :=
  '\uFFFD'

def isContinuation (b : ℕ) : Bool :=
  0x80 ≤ b && b < 0xC0

/-- Whether `second` may follow the first of three bytes. -/
def secondOfThree (first second : ℕ) : Bool :=
  (first = 0xE0 && 0xA0 ≤ second && second < 0xC0) ||
    (0xE1 ≤ first && first ≤ 0xEC && isContinuation second) ||
    (first = 0xED && 0x80 ≤ second && second < 0xA0) ||
    (0xEE ≤ first && first ≤ 0xEF && isContinuation second)

/-- Whether `second` may follow the first of four bytes. -/
def secondOfFour (first second : ℕ) : Bool :=
  (first = 0xF0 && 0x90 ≤ second && second < 0xC0) ||
    (0xF1 ≤ first && first ≤ 0xF3 && isContinuation second) ||
    (first = 0xF4 && 0x80 ≤ second && second < 0x90)

/-- The character that `first` begins, or the replacement for as much of one as there is, and how
many of the bytes after `first` it takes.  Past the end stands a zero. -/
def nextChar (first : ℕ) (rest : List UInt8) : Char × ℕ :=
  let a := (rest.getD 0 0).toNat
  let b := (rest.getD 1 0).toNat
  let c := (rest.getD 2 0).toNat
  if first < 0x80 then (Char.ofNat first, 0)
  else if 0xC2 ≤ first ∧ first ≤ 0xDF then
    if isContinuation a then (Char.ofNat ((first - 0xC0) * 64 + (a - 0x80)), 1)
    else (replacement, 0)
  else if 0xE0 ≤ first ∧ first ≤ 0xEF then
    if !secondOfThree first a then (replacement, 0)
    else if !isContinuation b then (replacement, 1)
    else (Char.ofNat ((first - 0xE0) * 4096 + (a - 0x80) * 64 + (b - 0x80)), 2)
  else if 0xF0 ≤ first ∧ first ≤ 0xF4 then
    if !secondOfFour first a then (replacement, 0)
    else if !isContinuation b then (replacement, 1)
    else if !isContinuation c then (replacement, 2)
    else (Char.ofNat ((first - 0xF0) * 262144 + (a - 0x80) * 4096 + (b - 0x80) * 64 + (c - 0x80)), 3)
  else (replacement, 0)

/-- Bytes as text, after `skip` bytes that the character before has taken. -/
def lossyFrom : ℕ → List UInt8 → List Char
  | _, [] => []
  | skip + 1, _ :: rest => lossyFrom skip rest
  | 0, byte :: rest =>
    let next := nextChar byte.toNat rest
    next.1 :: lossyFrom next.2 rest

/-- Bytes as text, with a replacement for what is not the encoding of one. -/
def fromUtf8Lossy (bytes : List UInt8) : List Char :=
  lossyFrom 0 bytes

/-- A number stands for its character, or for none and then for the first of all. -/
theorem toNat_ofNat (n : ℕ) : (Char.ofNat n).toNat = n ∨ Char.ofNat n = '\x00' := by
  by_cases valid : n.isValidChar
  · left
    rw [Char.ofNat, dif_pos valid]
    rfl
  · right
    rw [Char.ofNat, dif_neg valid]
    rfl

theorem nextChar_ascii {first : ℕ} {rest : List UInt8} (ascii : (nextChar first rest).1.toNat < 128)
    (some_ : (nextChar first rest).1 ≠ '\x00') : (nextChar first rest).1.toNat = first := by
  have wide : ∀ n : ℕ, 128 ≤ n → (Char.ofNat n).toNat < 128 → Char.ofNat n ≠ '\x00' →
      (Char.ofNat n).toNat = first := by
    intro n high low some_
    have same := (toNat_ofNat n).resolve_right some_
    omega
  have replaced : ¬replacement.toNat < 128 := by decide
  revert ascii some_
  unfold nextChar
  simp only
  split_ifs with single two a three second b four second b c <;> dsimp only
  · exact fun _ some_ => (toNat_ofNat first).resolve_right some_
  · exact wide _ (by omega)
  · exact fun ascii => absurd ascii replaced
  · exact fun ascii => absurd ascii replaced
  · exact fun ascii => absurd ascii replaced
  · refine wide _ ?_
    simp only [secondOfThree, isContinuation, Bool.not_eq_true, Bool.not_eq_false', Bool.or_eq_true,
      Bool.and_eq_true, decide_eq_true_eq] at second
    omega
  · exact fun ascii => absurd ascii replaced
  · exact fun ascii => absurd ascii replaced
  · exact fun ascii => absurd ascii replaced
  · refine wide _ ?_
    simp only [secondOfFour, isContinuation, Bool.not_eq_true, Bool.not_eq_false', Bool.or_eq_true,
      Bool.and_eq_true, decide_eq_true_eq] at second
    omega
  · exact fun ascii => absurd ascii replaced

theorem mem_of_mem_lossyFrom {c : Char} (ascii : c.toNat < 128) (some_ : c ≠ '\x00') {skip : ℕ}
    {bytes : List UInt8} (mem : c ∈ lossyFrom skip bytes) : ∃ b ∈ bytes, b.toNat = c.toNat := by
  induction bytes generalizing skip with
  | nil => cases skip <;> cases mem
  | cons byte _ ih =>
    cases skip with
    | succ =>
      obtain ⟨b, here, same⟩ := ih mem
      exact ⟨b, mem_cons_of_mem _ here, same⟩
    | zero =>
      rw [lossyFrom, mem_cons] at mem
      obtain rfl | later := mem
      · exact ⟨byte, mem_cons_self, (nextChar_ascii ascii some_).symm⟩
      · obtain ⟨b, here, same⟩ := ih later
        exact ⟨b, mem_cons_of_mem _ here, same⟩

theorem mem_of_mem_fromUtf8Lossy {c : Char} (ascii : c.toNat < 128) (some_ : c ≠ '\x00')
    {bytes : List UInt8} (mem : c ∈ fromUtf8Lossy bytes) : ∃ b ∈ bytes, b.toNat = c.toNat :=
  mem_of_mem_lossyFrom ascii some_ mem

end Lossy

end JackalopeFs.TextBytes
