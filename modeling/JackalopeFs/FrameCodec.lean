import JackalopeFs.LittleEndian
import JackalopeFs.WireRoundTrip

/-! # Frames

A frame is a length of four bytes and one message of a single segment.  What Cap'n Proto
does is taken from outside: `Capnp` says how a builder lays a message out and how a reader
reads it, and that a message written flat is read back.  A builder may give up on a list
too long for the format.  A reader that follows its pointers only as they are asked for is
one that reads the whole message here.

The stream a frame is read from is what arrives, in chunks of any size, until it ends.
-/

namespace JackalopeFs.FrameCodec

open LittleEndian WireConversions WireMessages

/-- Largest frame body either side will encode or accept. -/
def maxFrame : ℕ := 2 * 1024 * 1024

def readChunk : ℕ := 64 * 1024

def traversalLimitWords : ℕ := 4 * maxFrame / 8

inductive ErrorCodec where
  | unexpectedEof
  | tooLarge (length : ℕ)
  | encode (error : ErrorCapnp)
  | decode (error : ErrorDecode)
  deriving DecidableEq, Repr

/-- What a segment is to the message written in it: whole words, at least one for every element of a
list of structs, and the message again when it is read, if a frame can hold it. -/
structure Holds {Schema : Type} [StructLists Schema] (read : Bytes → Except ErrorCapnp Schema)
    (message : Schema) (segment : Bytes) : Prop where
  words : segment.length % 8 = 0
  elements : StructLists.elements message ≤ segment.length / 8
  reads : 8 + segment.length ≤ maxFrame → read segment = .ok message

/-- Cap'n Proto, as far as it is used: the segments of a message built with so many words reserved
for the first, the one segment of a message in canonical form, and a reader. -/
structure Capnp (Schema : Type) [StructLists Schema] where
  build : UInt32 → Schema → Except ErrorCapnp (List Bytes)
  canonicalize : Schema → Except ErrorCapnp Bytes
  read : Bytes → Except ErrorCapnp Schema
  built : ∀ hint message segment, build hint message = .ok [segment] → Holds read message segment
  canonical : ∀ message segment, canonicalize message = .ok segment → Holds read message segment

section Codec

variable {T Schema : Type} [StructLists Schema] [Message T Schema] (capnp : Capnp Schema)

/-- Frame a message of one segment: its length, its segment table and the segment. -/
def frameOneSegment (segment : Bytes) : Except ErrorCodec Bytes :=
  let len := 8 + segment.length
  if maxFrame < len then .error (.tooLarge len)
  else .ok (toBytes 4 len ++ toBytes 4 0 ++ toBytes 4 (segment.length / 8) ++ segment)

/-- Encode a message as a complete frame.  If the first segment was too short and the builder went on
in a second one, the message is put into one by canonicalizing it. -/
def encode (msg : T) : Except ErrorCodec Bytes :=
  match capnp.build (.ofNat (Message.sizeHint msg)) (Message.build msg) with
  | .error error => .error (.encode error)
  | .ok [segment] => frameOneSegment segment
  | .ok _ =>
    match capnp.canonicalize (Message.build msg) with
    | .error error => .error (.encode error)
    | .ok segment => frameOneSegment segment

/-- The one segment of a message read flat, and what follows it. -/
def readFlat (body : Bytes) : Except ErrorCapnp (Bytes × Bytes) :=
  let words := ofBytes ((body.drop 4).take 4)
  if traversalLimitWords < words then .error .tooLarge
  else if (body.drop 8).length < words * 8 then .error .premature
  else .ok ((body.drop 8).take (words * 8), (body.drop 8).drop (words * 8))

def decode (body : Bytes) : Except ErrorCodec T :=
  if body.length < 8 then .error (.decode (.frame (.short body.length)))
  else
    let segments := ofBytes (body.take 4) + 1
    if segments ≠ 1 then .error (.decode (.frame (.segments segments)))
    else
      match readFlat body with
      | .error error => .error (.decode (.capnp error))
      | .ok (segment, rest) =>
        if rest ≠ [] then .error (.decode (.frame (.trailing rest.length)))
        else
          match capnp.read segment with
          | .error error => .error (.decode (.capnp error))
          | .ok message => (Message.parse message (segment.length / 8)).mapError .decode

/-- What is still to arrive on a stream, in the chunks it arrives in. -/
abbrev Stream := List Bytes

def readExact : ℕ → Stream → Except ErrorCodec (Bytes × Stream)
  | 0, stream => .ok ([], stream)
  | _ + 1, [] => .error .unexpectedEof
  | n + 1, chunk :: rest =>
    if n + 1 ≤ chunk.length then .ok (chunk.take (n + 1), chunk.drop (n + 1) :: rest)
    else
      (readExact (n + 1 - chunk.length) rest).map fun r => (chunk ++ r.1, r.2)

theorem length_of_readExact {n : ℕ} {stream rest : Stream} {bytes : Bytes}
    (h : readExact n stream = .ok (bytes, rest)) : bytes.length = n := by
  fun_induction readExact n stream generalizing bytes rest with
  | case1 =>
    cases h
    rfl
  | case2 => cases h
  | case3 _ _ _ whole =>
    cases h
    exact List.length_take_of_le whole
  | case4 n chunk later _ ih =>
    cases more : readExact (n + 1 - chunk.length) later with
    | error =>
      rw [more] at h
      cases h
    | ok =>
      rw [more] at h
      cases h
      have := ih more
      rw [List.length_append]
      omega

/-- Fill a frame body up to `len`, a bounded step at a time. -/
def fillBody (len : ℕ) (body : Bytes) (stream : Stream) : Except ErrorCodec (Bytes × Stream) :=
  if body.length < len then
    match _more : readExact (min (len - body.length) readChunk) stream with
    | .error error => .error error
    | .ok (bytes, rest) => fillBody len (body ++ bytes) rest
  else .ok (body, stream)
termination_by len - body.length
decreasing_by
  have := length_of_readExact _more
  simp only [List.length_append, readChunk] at *
  omega

/-- Read exactly one frame and decode it, keeping the body whether or not it decodes. -/
def readFrameBody (stream : Stream) : Except ErrorCodec ((Bytes × Except ErrorCodec T) × Stream) := do
  let (lenBytes, stream) ← readExact 4 stream
  let len := ofBytes lenBytes
  if maxFrame < len then .error (.tooLarge len)
  else
    let (body, stream) ← fillBody len [] stream
    return ((body, decode capnp body), stream)

def readFrame (stream : Stream) : Except ErrorCodec (T × Stream) := do
  let ((_, decoded), stream) ← readFrameBody capnp stream
  return (← decoded, stream)

def readFrames : ℕ → Stream → Except ErrorCodec (List T × Stream)
  | 0, stream => .ok ([], stream)
  | n + 1, stream => do
      let (msg, stream) ← readFrame capnp stream
      let (msgs, stream) ← readFrames n stream
      return (msg :: msgs, stream)

end Codec

end JackalopeFs.FrameCodec
