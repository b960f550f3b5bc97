import JackalopeFs.TextBytes
import JackalopeFs.WireMessages

/-! # Certificate fingerprints

A fingerprint is the SHA-256 digest of a certificate, written as `sha256:` and 64 digits.
It is read back pair by pair: the bytes of the text are cut in twos, whatever characters
they belong to, and each two are read as a number by the integer parser of the standard
library.  That parser also takes a number with a plus sign before it.

The digest itself is any function from certificates to 32 bytes.  Writing outside the
array of the result would be a panic; a reading that panics has no result.
-/

namespace JackalopeFs.Fingerprints

open TextBytes
open WireMessages (Bytes)

inductive ErrorFingerprint where
  | marker
  | hex
  deriving DecidableEq, Repr

def marker : List Char :=
  ['s', 'h', 'a', '2', '5', '6', ':']

section Writing

def lowerDigit (value : ℕ) : Char :=
  if value < 10 then Char.ofNat (48 + value) else Char.ofNat (87 + value)

def lowerHex (byte : UInt8) : List Char :=
  [lowerDigit (byte.toNat / 16), lowerDigit (byte.toNat % 16)]

/-- The fingerprint of a certificate whose digest is `fingerprintBytes`. -/
def fingerprint (fingerprintBytes : Bytes → Vector UInt8 32) (der : Bytes) : String :=
  String.ofList (marker ++ (fingerprintBytes der).toList.flatMap lowerHex)

end Writing

section Reading

def toDigit (byte : UInt8) : Option ℕ :=
  if 48 ≤ byte.toNat ∧ byte.toNat ≤ 57 then some (byte.toNat - 48)
  else if 65 ≤ byte.toNat ∧ byte.toNat ≤ 70 then some (byte.toNat - 55)
  else if 97 ≤ byte.toNat ∧ byte.toNat ≤ 102 then some (byte.toNat - 87)
  else none

def readDigits (value : ℕ) : Bytes → Option UInt8
  | [] => some (.ofNat value)
  | byte :: rest =>
    match toDigit byte with
    | none => none
    | some digit => if value * 16 + digit < 256 then readDigits (value * 16 + digit) rest else none

/-- The standard library's reader of a `u8` in base 16.  A number may have a plus sign before it; a
minus sign is no digit. -/
def fromStrRadix : Bytes → Option UInt8
  | [] => none
  | byte :: rest =>
    if (byte = 43 ∨ byte = 45) ∧ rest = [] then none
    else if byte = 43 then readDigits 0 rest
    else readDigits 0 (byte :: rest)

/-- Cut in twos, with a single one at the end if the length is odd. -/
def chunks : Bytes → List Bytes
  | [] => []
  | [a] => [[a]]
  | a :: b :: rest => [a, b] :: chunks rest

/-- The number two bytes spell, if they are text at all. -/
def readChunk (chunk : Bytes) : Option UInt8 :=
  if chunk.toByteArray.validateUTF8 then fromStrRadix chunk else none

def fill (i : ℕ) : List Bytes → Vector UInt8 32 →
    Option (Except ErrorFingerprint (Vector UInt8 32))
  | [], out => some (.ok out)
  | chunk :: rest, out =>
    match readChunk chunk with
    | none => some (.error .hex)
    | some value => if h : i < 32 then fill (i + 1) rest (out.set i value h) else none

/-- The text after the marker without its separators. -/
def unseparated (hex : List Char) : List Char :=
  hex.filter (· ≠ ':')

def parseFingerprint (text : String) : Option (Except ErrorFingerprint (Vector UInt8 32)) :=
  match marker.isPrefixOf? text.toList with
  | none => some (.error .marker)
  | some hex =>
    let hex := unseparated hex
    if (asBytes hex).length ≠ 64 then some (.error .hex)
    else fill 0 (chunks (asBytes hex)) (Vector.replicate 32 0)

end Reading

/-! ## What a fingerprint should be -/

section Spelling

def IsHexDigit (c : Char) : Prop :=
  (48 ≤ c.toNat ∧ c.toNat ≤ 57) ∨ (65 ≤ c.toNat ∧ c.toNat ≤ 70) ∨ (97 ≤ c.toNat ∧ c.toNat ≤ 102)
  deriving Decidable

def digitValue (c : Char) : ℕ :=
  if c.toNat ≤ 57 then c.toNat - 48 else if c.toNat ≤ 70 then c.toNat - 55 else c.toNat - 87

def spelled : List Char → Bytes
  | high :: low :: rest => .ofNat (16 * digitValue high + digitValue low) :: spelled rest
  | _ => []

/-- A text that is a fingerprint, and the bytes it stands for. -/
def Denotes (text : String) (out : Vector UInt8 32) : Prop :=
  ∃ rest, text.toList = marker ++ rest ∧ (unseparated rest).length = 64 ∧
    (∀ c ∈ unseparated rest, IsHexDigit c) ∧ out.toList = spelled (unseparated rest)

end Spelling

section Digits

theorem toDigit_lt {byte : UInt8} {value : ℕ} (digit : toDigit byte = some value) :
    value < 16 ∧ byte.toNat < 128 := by
  unfold toDigit at digit
  split_ifs at digit <;> cases digit <;> omega

theorem toDigit_of_isHexDigit {c : Char} (hex : IsHexDigit c) :
    toDigit (.ofNat c.toNat) = some (digitValue c) := by
  have small : c.toNat < 256 := by
    unfold IsHexDigit at hex
    omega
  unfold toDigit digitValue
  rw [UInt8.toNat_ofNat_of_lt' small]
  unfold IsHexDigit at hex
  split_ifs <;> first | rfl | omega

theorem isHexDigit_of_toDigit {c : Char} {value : ℕ} (ascii : c.toNat < 128)
    (digit : toDigit (.ofNat c.toNat) = some value) : IsHexDigit c := by
  have small : c.toNat < UInt8.size := Nat.lt_trans ascii (by decide)
  unfold toDigit at digit
  rw [UInt8.toNat_ofNat_of_lt' small] at digit
  unfold IsHexDigit
  split_ifs at digit <;> omega

theorem ascii_of_isHexDigit {c : Char} (hex : IsHexDigit c) : c.toNat < 128 := by
  unfold IsHexDigit at hex
  omega

theorem digitValue_lt {c : Char} (hex : IsHexDigit c) : digitValue c < 16 :=
  (toDigit_lt (toDigit_of_isHexDigit hex)).1

theorem lowerDigit_spec (value : ℕ) (small : value < 16) :
    IsHexDigit (lowerDigit value) ∧ digitValue (lowerDigit value) = value ∧ lowerDigit value ≠ ':' := by
  revert value
  decide

end Digits

section Pairs

theorem readChunk_pair {a b : UInt8} (plain : a ≠ 43) {value : UInt8} :
    readChunk [a, b] = some value ↔ ∃ high low, toDigit a = some high ∧ toDigit b = some low ∧
      value = .ofNat (16 * high + low) := by
  have digits : fromStrRadix [a, b] = readDigits 0 [a, b] := by
    simp [fromStrRadix, plain]
  constructor
  · intro read
    unfold readChunk at read
    split_ifs at read
    rw [digits, readDigits] at read
    cases high : toDigit a with
    | none => simp [high] at read
    | some x =>
      cases low : toDigit b with
      | none => simp [high, low, readDigits] at read
      | some y =>
        have := toDigit_lt high
        have := toDigit_lt low
        refine ⟨x, y, rfl, rfl, ?_⟩
        simp only [high, low, readDigits] at read
        rw [if_pos (by omega), if_pos (by omega)] at read
        cases read
        congr 1
        omega
  · rintro ⟨x, y, high, low, rfl⟩
    have := toDigit_lt high
    have := toDigit_lt low
    have valid : [a, b].toByteArray.validateUTF8 = true := by
      refine validateUTF8_ascii fun c mem => ?_
      simp only [List.mem_cons, List.not_mem_nil, or_false] at mem
      obtain rfl | rfl := mem <;> omega
    unfold readChunk
    rw [if_pos valid, digits]
    simp only [readDigits, high, low]
    rw [if_pos (by omega), if_pos (by omega)]
    congr 2
    omega

theorem length_chunks (bytes : Bytes) : (chunks bytes).length = (bytes.length + 1) / 2 := by
  fun_induction chunks bytes with
  | case1 => rfl
  | case2 => simp
  | case3 _ _ _ ih =>
    simp only [List.length_cons, ih]
    omega

/-- Bytes that are read in pairs, without a plus sign among them, are digits. -/
theorem digits_of_mapM {bytes : Bytes} {values : List UInt8} (even : bytes.length % 2 = 0)
    (plain : 43 ∉ bytes) (read : (chunks bytes).mapM readChunk = some values) :
    ∀ b ∈ bytes, (toDigit b).isSome := by
  fun_induction chunks bytes generalizing values with
  | case1 => simp
  | case2 => simp at even
  | case3 _ _ _ ih =>
    rw [List.mapM_cons] at read
    obtain ⟨value, first, read⟩ := Option.bind_eq_some_iff.mp read
    obtain ⟨later, rest', -⟩ := Option.bind_eq_some_iff.mp read
    simp only [List.mem_cons, not_or] at plain
    obtain ⟨high, low, isHigh, isLow, -⟩ := (readChunk_pair (fun same => plain.1 same.symm)).mp first
    simp only [List.length_cons] at even
    have tail := ih (by omega) plain.2.2 rest'
    intro c mem
    simp only [List.mem_cons] at mem
    obtain rfl | rfl | mem := mem
    · exact Option.isSome_iff_exists.mpr ⟨high, isHigh⟩
    · exact Option.isSome_iff_exists.mpr ⟨low, isLow⟩
    · exact tail c mem

theorem mapM_readChunk {digits : List Char} (hex : ∀ c ∈ digits, IsHexDigit c)
    (even : digits.length % 2 = 0) :
    (chunks (asBytes digits)).mapM readChunk = some (spelled digits) := by
  rw [asBytes_ascii fun c mem => ascii_of_isHexDigit (hex c mem)]
  fun_induction spelled digits with
  | case1 high low _ ih =>
    have isHigh := hex high List.mem_cons_self
    have isLow := hex low (List.mem_cons_of_mem _ List.mem_cons_self)
    have plain : UInt8.ofNat high.toNat ≠ 43 := by
      intro same
      have digit := toDigit_of_isHexDigit isHigh
      rw [same] at digit
      cases digit
    have first := (readChunk_pair (b := .ofNat low.toNat) plain).mpr
      ⟨_, _, toDigit_of_isHexDigit isHigh, toDigit_of_isHexDigit isLow, rfl⟩
    simp only [List.length_cons] at even
    have tail := ih (fun c mem => hex c (List.mem_cons_of_mem _ (List.mem_cons_of_mem _ mem)))
      (by omega)
    simp only [List.map_cons, chunks, List.mapM_cons, first, tail]
    rfl
  | case2 digits short =>
    match digits with
    | [] => rfl
    | [_] => simp at even
    | high :: low :: rest => exact absurd rfl (short high low rest)

/-- Text without a plus sign is read in pairs exactly when it is digits, as the bytes they spell. -/
theorem mapM_readChunk_iff {text : List Char} (plain : '+' ∉ text)
    (even : (asBytes text).length % 2 = 0) {values : List UInt8} :
    (chunks (asBytes text)).mapM readChunk = some values ↔
      (∀ c ∈ text, IsHexDigit c) ∧ values = spelled text := by
  have length : (∀ c ∈ text, c.toNat < 128) → text.length % 2 = 0 := by
    intro ascii
    rw [asBytes_ascii ascii, List.length_map] at even
    exact even
  constructor
  · intro read
    have noPlus : 43 ∉ asBytes text := by
      intro mem
      obtain ⟨c, here, same⟩ := mem_of_mem_asBytes (by decide) mem
      have : c = '+' := Char.toNat_inj.mp same
      exact plain (this ▸ here)
    have digits := digits_of_mapM even noPlus read
    have small : ∀ b ∈ asBytes text, b.toNat < 128 := by
      intro b mem
      obtain ⟨value, digit⟩ := Option.isSome_iff_exists.mp (digits b mem)
      exact (toDigit_lt digit).2
    have ascii : ∀ c ∈ text, c.toNat < 128 := fun c mem => ascii_of_asBytes small mem
    have hex : ∀ c ∈ text, IsHexDigit c := by
      intro c mem
      have byte : UInt8.ofNat c.toNat ∈ asBytes text := by
        rw [asBytes_ascii ascii]
        exact List.mem_map_of_mem mem
      obtain ⟨value, digit⟩ := Option.isSome_iff_exists.mp (digits _ byte)
      exact isHexDigit_of_toDigit (ascii c mem) digit
    rw [mapM_readChunk hex (length ascii)] at read
    cases read
    exact ⟨hex, rfl⟩
  · rintro ⟨hex, rfl⟩
    exact mapM_readChunk hex (length fun c mem => ascii_of_isHexDigit (hex c mem))

end Pairs

section Whole

/-- Filling the result to its end writes the values one after the other, if all chunks are read. -/
theorem fill_spec {i : ℕ} {parts : List Bytes} (out : Vector UInt8 32) (total : i + parts.length = 32) :
    (parts.mapM readChunk = none ∧ fill i parts out = some (.error .hex)) ∨
      ∃ values result, parts.mapM readChunk = some values ∧ fill i parts out = some (.ok result) ∧
        result.toList = out.toList.take i ++ values := by
  induction parts generalizing i out with
  | nil =>
    refine .inr ⟨[], out, rfl, rfl, ?_⟩
    rw [List.append_nil, List.take_of_length_le]
    simp only [Vector.length_toList, List.length_nil] at total ⊢
    omega
  | cons chunk _ ih =>
    rw [List.length_cons] at total
    have room : i < 32 := by omega
    cases read : readChunk chunk with
    | none => exact .inl ⟨by simp [read], by simp only [fill, read]⟩
    | some value =>
      obtain ⟨refused, failed⟩ | ⟨values, result, rest', done, written⟩ :=
        @ih (i + 1) (out.set i value room) (by omega)
      · exact .inl ⟨by simp [read, refused], by simp only [fill, read, dif_pos room, failed]⟩
      · refine .inr ⟨value :: values, result, by simp [read, rest'],
          by simp only [fill, read, dif_pos room, done], ?_⟩
        rw [written, Vector.toList_set, List.take_succ_eq_append_getElem (by simpa using room),
          List.take_set_of_le (le_refl i), List.getElem_set_self, List.append_assoc,
          List.singleton_append]

/-- A text after the marker is read by the rule for pairs, and the result is never outside its array. -/
theorem parseFingerprint_marked {text : String} {rest : List Char}
    (marked : marker.isPrefixOf? text.toList = some rest) (out : Vector UInt8 32) :
    parseFingerprint text ≠ none ∧
      (parseFingerprint text = some (.ok out) ↔ (asBytes (unseparated rest)).length = 64 ∧
        (chunks (asBytes (unseparated rest))).mapM readChunk = some out.toList) := by
  unfold parseFingerprint
  simp only [marked]
  by_cases length : (asBytes (unseparated rest)).length = 64
  · rw [if_neg (not_not.mpr length)]
    have total : 0 + (chunks (asBytes (unseparated rest))).length = 32 := by
      rw [length_chunks, length]
    obtain ⟨refused, failed⟩ | ⟨values, result, read, done, written⟩ :=
      fill_spec (Vector.replicate 32 0) total
    · simp [failed, refused, length]
    · simp only [done, read, length, ne_eq, reduceCtorEq, not_false_eq_true, Option.some.injEq,
        Except.ok.injEq, true_and]
      rw [List.take_zero, List.nil_append] at written
      rw [← written]
      exact Vector.toList_inj.symm
  · rw [if_pos length]
    simp [length]

theorem isPrefixOf?_eq_some_iff {front text rest : List Char} :
    front.isPrefixOf? text = some rest ↔ text = front ++ rest := by
  induction front generalizing text with
  | nil => simp [List.isPrefixOf?, eq_comm]
  | cons a _ ih =>
    cases text with
    | nil => simp [List.isPrefixOf?]
    | cons b =>
      by_cases same : a = b
      · simp [List.isPrefixOf?, same, ih]
      · simp [List.isPrefixOf?, same, Ne.symm same]

theorem parseFingerprint_ne_none (text : String) : parseFingerprint text ≠ none := by
  cases marked : marker.isPrefixOf? text.toList with
  | none => simp [parseFingerprint, marked]
  | some => exact (parseFingerprint_marked marked (Vector.replicate 32 0)).1

/-- A text without a plus sign is accepted exactly if it is a fingerprint, as the bytes it stands for. -/
theorem parseFingerprint_eq_ok_iff {text : String} (plain : '+' ∉ text.toList) {out : Vector UInt8 32} :
    parseFingerprint text = some (.ok out) ↔ Denotes text out := by
  cases marked : marker.isPrefixOf? text.toList with
  | none =>
    refine ⟨fun read => by simp [parseFingerprint, marked] at read, ?_⟩
    rintro ⟨rest, written, -⟩
    rw [isPrefixOf?_eq_some_iff.mpr written] at marked
    cases marked
  | some rest =>
    have written := isPrefixOf?_eq_some_iff.mp marked
    have noPlus : '+' ∉ unseparated rest := fun mem =>
      plain (written ▸ List.mem_append_right _ (List.mem_of_mem_filter mem))
    have same : ∀ other, text.toList = marker ++ other → other = rest := fun other as =>
      List.append_cancel_left (as.symm.trans written)
    rw [(parseFingerprint_marked marked out).2]
    constructor
    · rintro ⟨length, read⟩
      obtain ⟨hex, values⟩ := (mapM_readChunk_iff noPlus (by rw [length])).mp read
      rw [asBytes_ascii fun c mem => ascii_of_isHexDigit (hex c mem), List.length_map] at length
      exact ⟨rest, written, length, hex, values⟩
    · rintro ⟨other, as, length, hex, values⟩
      cases same other as
      have bytes : (asBytes (unseparated rest)).length = 64 := by
        rw [asBytes_ascii fun c mem => ascii_of_isHexDigit (hex c mem), List.length_map, length]
      exact ⟨bytes, (mapM_readChunk_iff noPlus (by rw [bytes])).mpr ⟨hex, values⟩⟩

end Whole

section Certificates

theorem flatMap_lowerHex (bytes : Bytes) :
    (∀ c ∈ bytes.flatMap lowerHex, IsHexDigit c ∧ c ≠ ':') ∧
      (bytes.flatMap lowerHex).length = 2 * bytes.length ∧ spelled (bytes.flatMap lowerHex) = bytes := by
  induction bytes with
  | nil => simp [spelled]
  | cons byte _ ih =>
    obtain ⟨hex, length, read⟩ := ih
    have small := byte.toNat_lt
    have high := lowerDigit_spec (byte.toNat / 16) (by omega)
    have low := lowerDigit_spec (byte.toNat % 16) (Nat.mod_lt _ (by decide))
    rw [List.flatMap_cons]
    refine ⟨?_, ?_, ?_⟩
    · intro c mem
      simp only [lowerHex, List.mem_append, List.mem_cons, List.not_mem_nil, or_false] at mem
      obtain (rfl | rfl) | mem := mem
      · exact ⟨high.1, high.2.2⟩
      · exact ⟨low.1, low.2.2⟩
      · exact hex c mem
    · simp only [lowerHex, List.length_append, List.length_cons, List.length_nil, length]
      omega
    · simp only [lowerHex, List.cons_append, List.nil_append, spelled, high.2.1, low.2.1, read]
      rw [Nat.div_add_mod, UInt8.ofNat_toNat]

theorem denotes_fingerprint (digest : Bytes → Vector UInt8 32) (der : Bytes) :
    Denotes (fingerprint digest der) (digest der) := by
  obtain ⟨hex, length, read⟩ := flatMap_lowerHex (digest der).toList
  have kept : unseparated ((digest der).toList.flatMap lowerHex) =
      (digest der).toList.flatMap lowerHex :=
    List.filter_eq_self.mpr fun c mem => by simpa using (hex c mem).2
  refine ⟨(digest der).toList.flatMap lowerHex, String.toList_ofList, ?_, ?_, ?_⟩
  · rw [kept, length, Vector.length_toList]
  · rw [kept]
    exact fun c mem => (hex c mem).1
  · rw [kept, read]

theorem plus_notMem_fingerprint (digest : Bytes → Vector UInt8 32) (der : Bytes) :
    '+' ∉ (fingerprint digest der).toList := by
  rw [fingerprint, String.toList_ofList]
  intro mem
  obtain mem | mem := List.mem_append.mp mem
  · revert mem
    decide
  · have := ((flatMap_lowerHex (digest der).toList).1 _ mem).1
    revert this
    decide

/-- A pair of digits whose first is a plus sign, and zeros after it. -/
def signedText : List Char :=
  marker ++ '+' :: 'f' :: List.replicate 62 '0'

end Certificates

end JackalopeFs.Fingerprints
