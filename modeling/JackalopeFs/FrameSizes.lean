import JackalopeFs.FrameCodec

/-! # Sizes of frames

A builder with room for the whole message in its first segment uses just the words the
message takes, so the frame is as long as these words and the tables before them.
-/

namespace JackalopeFs.FrameCodec

open LittleEndian WireConversions WireMessages

section Sizes

variable {T Schema : Type} [StructLists Schema] [Message T Schema] {capnp : Capnp Schema} {words : Schema → ℕ}
  {these : Set Schema}

/-- These messages take so many words of a first segment that has room for them. -/
def Lays (capnp : Capnp Schema) (words : Schema → ℕ) (these : Set Schema) : Prop :=
  ∀ message ∈ these, ∀ hint : UInt32, words message ≤ hint.toNat →
    ∃ segment, capnp.build hint message = .ok [segment] ∧ segment.length = 8 * words message

theorem frameOneSegment_of_le {segment : Bytes} (fits : 8 + segment.length ≤ maxFrame) :
    ∃ frame, frameOneSegment segment = .ok frame ∧ frame.length = 12 + segment.length := by
  refine ⟨_, if_neg (by omega), ?_⟩
  simp only [List.length_append, length_toBytes]

theorem frameOneSegment_of_lt {segment : Bytes} (long : maxFrame < 8 + segment.length) :
    frameOneSegment segment = .error (.tooLarge (8 + segment.length)) :=
  if_pos long

theorem encode_of_lays (lays : Lays capnp words these) (msg : T) (mem : Message.build msg ∈ these)
    (fits : words (Message.build msg) ≤ Message.sizeHint msg) (small : Message.sizeHint msg < 2 ^ 32) :
    ∃ segment, encode capnp msg = frameOneSegment segment ∧
      segment.length = 8 * words (Message.build msg) := by
  have hint : (UInt32.ofNat (Message.sizeHint msg)).toNat = Message.sizeHint msg :=
    UInt32.toNat_ofNat_of_lt' small
  obtain ⟨segment, built, length⟩ := lays _ mem (.ofNat (Message.sizeHint msg)) (by rw [hint]; exact fits)
  refine ⟨segment, ?_, length⟩
  unfold encode
  rw [built]

/-- A builder and reader that know these messages only: zeros, and last the place of the message. -/
def Capnp.among [DecidableEq Schema] (words : Schema → ℕ) (messages : List Schema)
    (some_ : ∀ message ∈ messages, 0 < words message)
    (room : ∀ message ∈ messages, StructLists.elements message ≤ words message)
    (few : messages.length ≤ 256) : Capnp Schema where
  build _ m := if m ∈ messages then
      .ok [List.replicate (8 * words m - 1) 0 ++ [UInt8.ofNat (messages.idxOf m)]]
    else .error .malformed
  canonicalize _ := .error .malformed
  read bytes :=
    match bytes.getLast?.bind fun i => messages[i.toNat]? with
    | some m => .ok m
    | none => .error .malformed
  built := fun hint m segment built => by
    split_ifs at built with mem
    cases built
    have positive := some_ m mem
    have length : (List.replicate (8 * words m - 1) (0 : UInt8) ++ [UInt8.ofNat (messages.idxOf m)]).length =
        8 * words m := by
      rw [List.length_append, List.length_replicate, List.length_singleton]
      omega
    refine ⟨?_, ?_, fun _ => ?_⟩
    · rw [length, Nat.mul_mod_right]
    · rw [length, Nat.mul_div_cancel_left _ (by decide)]
      exact room m mem
    · have place : (UInt8.ofNat (messages.idxOf m)).toNat = messages.idxOf m :=
        UInt8.toNat_ofNat_of_lt' (lt_of_lt_of_le (List.idxOf_lt_length_of_mem mem) few)
      rw [List.getLast?_append, List.getLast?_singleton, Option.some_or, Option.bind_some, place,
        List.getElem?_idxOf mem]
  canonical := fun m segment made => by cases made

theorem lays_among [DecidableEq Schema] (words : Schema → ℕ) (these : Set Schema) (messages : List Schema)
    (some_ : ∀ message ∈ messages, 0 < words message)
    (room : ∀ message ∈ messages, StructLists.elements message ≤ words message)
    (few : messages.length ≤ 256) (known : ∀ message ∈ these, message ∈ messages) :
    Lays (Capnp.among words messages some_ room few) words these := by
  intro message mem hint _
  refine ⟨_, if_pos (known message mem), ?_⟩
  have positive := some_ message (known message mem)
  rw [List.length_append, List.length_replicate, List.length_singleton]
  omega

end Sizes

end JackalopeFs.FrameCodec
