import JackalopeFs.FrameCodec

/-! # Frames come through as they were sent

However a stream is cut into chunks, reading from it depends only on the bytes that arrive.
From that, and from what an encoded frame is, follow that decoding undoes encoding, that
frames in a row are read one by one to the last byte, and that a frame cut short is never
taken for a message.
-/

namespace JackalopeFs.FrameCodec

open List LittleEndian WireConversions WireMessages

section Streams

variable {n len : ℕ} {stream : Stream} {body front back : Bytes}

theorem readExact_ok (arrives : stream.flatten = front ++ back) (size : front.length = n) :
    ∃ rest, readExact n stream = .ok (front, rest) ∧ rest.flatten = back := by
  fun_induction readExact n stream generalizing front with
  | case1 stream =>
    obtain rfl := length_eq_zero_iff.mp size
    exact ⟨stream, rfl, arrives⟩
  | case2 =>
    have := congrArg List.length arrives
    simp only [flatten_nil, length_nil, length_append] at this
    omega
  | case3 n chunk later whole =>
    rw [flatten_cons] at arrives
    have taken := congrArg (List.take (n + 1)) arrives
    have dropped := congrArg (List.drop (n + 1)) arrives
    rw [take_append_of_le_length whole, take_left' size] at taken
    rw [drop_append_of_le_length whole, drop_left' size] at dropped
    exact ⟨chunk.drop (n + 1) :: later, by rw [taken], dropped⟩
  | case4 _ chunk later _ ih =>
    rw [flatten_cons] at arrives
    obtain ⟨more, rfl, next⟩ : ∃ more, front = chunk ++ more ∧ later.flatten = more ++ back := by
      rcases append_eq_append_iff.mp arrives with ⟨more, eq, rest⟩ | ⟨more, eq, rest⟩
      · exact ⟨more, eq, rest⟩
      · have := congrArg List.length eq
        rw [length_append] at this
        omega
    rw [length_append] at size
    obtain ⟨rest, read, left⟩ := ih next (by omega)
    exact ⟨rest, by rw [read]; rfl, left⟩

theorem readExact_eof (short : stream.flatten.length < n) :
    readExact n stream = .error .unexpectedEof := by
  fun_induction readExact n stream with
  | case1 => simp at short
  | case2 => rfl
  | case3 =>
    rw [flatten_cons, length_append] at short
    omega
  | case4 _ _ _ _ ih =>
    rw [flatten_cons, length_append] at short
    rw [ih (by omega)]
    rfl

theorem flatten_of_readExact {bytes : Bytes} {rest : Stream} (h : readExact n stream = .ok (bytes, rest)) :
    stream.flatten = bytes ++ rest.flatten := by
  by_cases enough : n ≤ stream.flatten.length
  · obtain ⟨rest', read, left⟩ := readExact_ok (take_append_drop n stream.flatten).symm
      (length_take_of_le enough)
    rw [h] at read
    cases read
    rw [left, take_append_drop]
  · rw [readExact_eof (by omega)] at h
    cases h

theorem fillBody_ok (arrives : stream.flatten = front ++ back)
    (size : body.length + front.length = len) :
    ∃ rest, fillBody len body stream = .ok (body ++ front, rest) ∧ rest.flatten = back := by
  fun_induction fillBody len body stream generalizing front with
  | case1 body _ _ _ failed =>
    rw [← take_append_drop readChunk front, append_assoc] at arrives
    obtain ⟨rest, read, _⟩ := readExact_ok arrives (n := min (len - body.length) readChunk)
      (by rw [length_take]; omega)
    rw [failed] at read
    cases read
  | case2 body _ _ _ _ read ih =>
    rw [← take_append_drop readChunk front, append_assoc] at arrives
    obtain ⟨rest, read', left⟩ := readExact_ok arrives (n := min (len - body.length) readChunk)
      (by rw [length_take]; omega)
    rw [read] at read'
    cases read'
    have size' : (body ++ front.take readChunk).length + (front.drop readChunk).length = len := by
      rw [length_append, Nat.add_assoc, ← length_append, take_append_drop, size]
    obtain ⟨rest, filled, left⟩ := ih left size'
    rw [append_assoc, take_append_drop] at filled
    exact ⟨rest, filled, left⟩
  | case3 _ stream =>
    obtain rfl : front = [] := length_eq_zero_iff.mp (by omega)
    exact ⟨stream, by rw [append_nil], arrives⟩

theorem fillBody_eof (short : body.length + stream.flatten.length < len) :
    fillBody len body stream = .error .unexpectedEof := by
  fun_induction fillBody len body stream with
  | case1 body stream _ _ failed =>
    by_cases enough : min (len - body.length) readChunk ≤ stream.flatten.length
    · obtain ⟨rest, read, _⟩ := readExact_ok (take_append_drop _ stream.flatten).symm
        (length_take_of_le enough)
      rw [failed] at read
      cases read
    · rw [readExact_eof (by omega)] at failed
      cases failed
      rfl
  | case2 _ _ _ _ _ read ih =>
    refine ih ?_
    have arrived := congrArg List.length (flatten_of_readExact read)
    simp only [length_append] at arrived ⊢
    omega
  | case3 => omega

theorem length_of_fillBody {filled : Bytes} {rest : Stream} (room : body.length ≤ len)
    (done : fillBody len body stream = .ok (filled, rest)) : filled.length = len := by
  fun_induction fillBody len body stream with
  | case1 => cases done
  | case2 _ _ _ _ _ read ih =>
    refine ih ?_ done
    have := length_of_readExact read
    rw [length_append]
    omega
  | case3 =>
    cases done
    omega

end Streams

section Codec

variable {T Schema : Type} [StructLists Schema]

/-- What an encoded frame is: a length, a segment table and a segment that holds the message. -/
structure Frame (capnp : Capnp Schema) (message : Schema) (segment frame : Bytes) : Prop where
  holds : Holds capnp.read message segment
  small : 8 + segment.length ≤ maxFrame
  bytes : frame = toBytes 4 (8 + segment.length) ++
    (toBytes 4 0 ++ toBytes 4 (segment.length / 8) ++ segment)

section Encoding

variable [Message T Schema] {capnp : Capnp Schema} {msg : T} {frame : Bytes}

theorem frame_of_frameOneSegment {message : Schema} {segment : Bytes}
    (holds : Holds capnp.read message segment) (made : frameOneSegment segment = .ok frame) :
    Frame capnp message segment frame := by
  unfold frameOneSegment at made
  simp only at made
  split_ifs at made with large
  cases made
  exact ⟨holds, Nat.not_lt.mp large, by simp only [append_assoc]⟩

theorem frame_of_encode (encoded : encode capnp msg = .ok frame) :
    ∃ segment, Frame capnp (Message.build msg) segment frame := by
  unfold encode at encoded
  split at encoded
  · cases encoded
  · rename_i segment built
    exact ⟨segment, frame_of_frameOneSegment (capnp.built _ _ _ built) encoded⟩
  · split at encoded
    · cases encoded
    · rename_i segment canonical
      exact ⟨segment, frame_of_frameOneSegment (capnp.canonical _ _ canonical) encoded⟩

end Encoding

variable {capnp : Capnp Schema} {message : Schema} {segment frame : Bytes}

theorem Frame.body (h : Frame capnp message segment frame) :
    frame.drop 4 = toBytes 4 0 ++ toBytes 4 (segment.length / 8) ++ segment := by
  rw [h.bytes, drop_left' (length_toBytes 4 _)]

theorem Frame.length (h : Frame capnp message segment frame) :
    (frame.drop 4).length = 8 + segment.length := by
  rw [h.body]
  simp only [length_append, length_toBytes]

/-- The segment of a message that a frame can hold is read flat, with nothing after it. -/
theorem readFlat_body (words : segment.length % 8 = 0) (small : 8 + segment.length ≤ maxFrame) :
    readFlat (toBytes 4 0 ++ toBytes 4 (segment.length / 8) ++ segment) = .ok (segment, []) := by
  have whole : segment.length / 8 * 8 = segment.length :=
    Nat.div_mul_cancel (Nat.dvd_of_mod_eq_zero words)
  have counted : ofBytes (toBytes 4 (segment.length / 8)) = segment.length / 8 :=
    ofBytes_toBytes (by unfold maxFrame at small; omega)
  have table : (toBytes 4 0 ++ toBytes 4 (segment.length / 8)).length = 8 := by
    simp only [length_append, length_toBytes]
  have second : ((toBytes 4 0 ++ toBytes 4 (segment.length / 8) ++ segment).drop 4).take 4 =
      toBytes 4 (segment.length / 8) := by
    rw [append_assoc, drop_left' (length_toBytes 4 0),
      take_left' (length_toBytes 4 _)]
  have limited : ¬traversalLimitWords < segment.length / 8 := by
    unfold traversalLimitWords
    omega
  simp only [readFlat, second, counted, drop_left' table, whole, if_neg limited, lt_irrefl,
    if_false, take_length, drop_length]

theorem Frame.decodes [Message T Schema] (h : Frame capnp message segment frame) :
    (decode capnp (frame.drop 4) : Except ErrorCodec T) =
      (Message.parse message (segment.length / 8)).mapError .decode := by
  have long : ¬(frame.drop 4).length < 8 := by
    rw [h.length]
    omega
  have one : ofBytes ((frame.drop 4).take 4) = 0 := by
    rw [h.body, append_assoc, take_left' (length_toBytes 4 0)]
    rfl
  have flat := readFlat_body h.holds.words h.small
  rw [← h.body] at flat
  simp only [decode, if_neg long, one, flat, h.holds.reads h.small]
  rfl

theorem readFrameBody_of_header [Message T Schema] {len : ℕ} {stream next : Stream}
    (header : readExact 4 stream = .ok (toBytes 4 len, next)) (fits : len ≤ maxFrame) :
    (readFrameBody capnp stream : Except ErrorCodec ((Bytes × Except ErrorCodec T) × Stream)) =
      (fillBody len [] next).map fun r => ((r.1, decode capnp r.1), r.2) := by
  have counted : ofBytes (toBytes 4 len) = len :=
    ofBytes_toBytes (by unfold maxFrame at fits; omega)
  simp only [readFrameBody, header, bind, Except.bind, counted, Nat.not_lt.mpr fits, if_false]
  cases fillBody len [] next <;> rfl

theorem Frame.parts (h : Frame capnp message segment frame) :
    frame = toBytes 4 (8 + segment.length) ++ frame.drop 4 := by
  rw [h.body]
  exact h.bytes

variable {stream : Stream}

/-- Reading a frame from a stream that begins with it gives its body and leaves the rest. -/
theorem Frame.read [Message T Schema] (h : Frame capnp message segment frame) {rest : Bytes}
    (arrives : stream.flatten = frame ++ rest) :
    ∃ later, (readFrameBody capnp stream : Except ErrorCodec ((Bytes × Except ErrorCodec T) × Stream)) =
        .ok ((frame.drop 4, decode capnp (frame.drop 4)), later) ∧ later.flatten = rest := by
  rw [h.parts, append_assoc] at arrives
  obtain ⟨next, header, arrives⟩ := readExact_ok arrives (length_toBytes 4 _)
  have size : ([] : Bytes).length + (frame.drop 4).length = 8 + segment.length := by
    rw [length_nil, Nat.zero_add, h.length]
  obtain ⟨later, filled, left⟩ := fillBody_ok arrives size
  refine ⟨later, ?_, left⟩
  rw [readFrameBody_of_header header h.small, filled]
  rfl

theorem Frame.cut [Message T Schema] (h : Frame capnp message segment frame) {lost : Bytes}
    (missing : lost ≠ []) (arrives : frame = stream.flatten ++ lost) :
    (readFrameBody capnp stream : Except ErrorCodec ((Bytes × Except ErrorCodec T) × Stream)) =
      .error .unexpectedEof := by
  by_cases header : stream.flatten.length < 4
  · simp only [readFrameBody, readExact_eof header, bind, Except.bind]
  · have front : stream.flatten.take 4 = toBytes 4 (8 + segment.length) := by
      have taken := congrArg (List.take 4) arrives
      rw [h.parts, take_left' (length_toBytes 4 _), take_append_of_le_length (by omega)] at taken
      exact taken.symm
    have split : stream.flatten = toBytes 4 (8 + segment.length) ++ stream.flatten.drop 4 := by
      rw [← front, take_append_drop]
    obtain ⟨next, read, left⟩ := readExact_ok split (length_toBytes 4 _)
    have short : ([] : Bytes).length + next.flatten.length < 8 + segment.length := by
      have positive := length_pos_iff.mpr missing
      have sizes := congrArg List.length arrives
      rw [← length_append, ← h.length]
      simp only [left, nil_append, length_drop, length_append] at sizes ⊢
      omega
    rw [readFrameBody_of_header read h.small, fillBody_eof short]
    rfl

/-- A frame is read as the message that was encoded, if its own parser takes it. -/
theorem decode_encode [RoundTrip T Schema] {msg : T} (genuine : RoundTrip.genuine msg)
    (encoded : encode capnp msg = .ok frame) : decode capnp (frame.drop 4) = .ok msg := by
  obtain ⟨segment, h⟩ := frame_of_encode encoded
  rw [h.decodes, RoundTrip.parse_build msg _ genuine h.holds.elements]
  rfl

theorem readFrames_ok [RoundTrip T Schema] {msgs : List T} {frames : List Bytes}
    (encoded : List.Forall₂ (fun msg frame => encode capnp msg = .ok frame ∧ RoundTrip.genuine msg) msgs frames)
    {rest : Bytes} (arrives : stream.flatten = frames.flatten ++ rest) :
    ∃ later, readFrames capnp msgs.length stream = .ok (msgs, later) ∧ later.flatten = rest := by
  induction encoded generalizing stream with
  | nil => exact ⟨stream, rfl, by simpa using arrives⟩
  | @cons msg frame msgs frames first _ ih =>
    obtain ⟨segment, h⟩ := frame_of_encode first.1
    rw [flatten_cons, append_assoc] at arrives
    obtain ⟨next, read, arrives⟩ := h.read (T := T) arrives
    obtain ⟨later, others, left⟩ := ih arrives
    refine ⟨later, ?_, left⟩
    rw [decode_encode first.2 first.1] at read
    simp only [length_cons, readFrames, readFrame, read, others, bind, Except.bind, pure,
      Except.pure]

theorem decode_segments [Message T Schema] {body : Bytes} (long : 8 ≤ body.length)
    (several : ofBytes (body.take 4) ≠ 0) :
    (decode capnp body : Except ErrorCodec T) =
      .error (.decode (.frame (.segments (ofBytes (body.take 4) + 1)))) := by
  have count : ofBytes (body.take 4) + 1 ≠ 1 := by omega
  simp only [decode, if_neg (Nat.not_lt.mpr long), if_pos count]

theorem decode_trailing [Message T Schema] {body : Bytes}
    (longer : 8 + ofBytes ((body.drop 4).take 4) * 8 < body.length) :
    ∃ error, (decode capnp body : Except ErrorCodec T) = .error error := by
  unfold decode
  simp only
  split_ifs
  · exact ⟨_, rfl⟩
  · exact ⟨_, rfl⟩
  · cases flat : readFlat body with
    | error => exact ⟨_, rfl⟩
    | ok =>
      unfold readFlat at flat
      simp only at flat
      split_ifs at flat
      cases flat
      have trails : (body.drop 8).drop (ofBytes ((body.drop 4).take 4) * 8) ≠ [] := by
        refine length_pos_iff.mp ?_
        simp only [length_drop]
        omega
      exact ⟨_, if_pos trails⟩

theorem length_of_readFrameBody [Message T Schema] {stream later : Stream} {body : Bytes}
    {decoded : Except ErrorCodec T}
    (read : readFrameBody capnp stream = .ok ((body, decoded), later)) : body.length ≤ maxFrame := by
  unfold readFrameBody at read
  simp only [bind, Except.bind] at read
  split at read
  · cases read
  · split_ifs at read with large
    cases filled : fillBody (ofBytes _) [] _ with
    | error =>
      rw [filled] at read
      cases read
    | ok =>
      rw [filled] at read
      cases read
      rw [length_of_fillBody (Nat.zero_le _) filled]
      exact Nat.not_lt.mp large

end Codec

/-- A builder and reader that know one message only, which they write as a segment of zeros. -/
def Capnp.only {Schema : Type} [StructLists Schema] [DecidableEq Schema] (message : Schema) :
    Capnp Schema where
  build _ m := if m = message then .ok [List.replicate (8 * StructLists.elements message) 0]
    else .error .malformed
  canonicalize _ := .error .malformed
  read bytes := if bytes = List.replicate (8 * StructLists.elements message) 0 then .ok message
    else .error .malformed
  built := fun hint m segment built => by
    split_ifs at built with same
    cases built
    refine ⟨?_, ?_, fun _ => ?_⟩
    · rw [length_replicate, Nat.mul_mod_right]
    · rw [length_replicate, Nat.mul_div_cancel_left _ (by decide), same]
    · rw [if_pos rfl, same]
  canonical := fun m segment made => by cases made

/-- A handshake's answer with a root handle one byte over the limit. -/
def ackLongHandle : HelloReply :=
  .ack 1 ⟨List.replicate 16 0, rfl⟩ false 1 ⟨1, List.replicate 129 0⟩ 0 0

end JackalopeFs.FrameCodec
