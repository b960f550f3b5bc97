import JackalopeFs.ControlRoundTrip
import JackalopeFs.FrameSizes
import JackalopeFs.WordLayout

/-! # Words of the control messages

What Cap'n Proto lays out for a reply of the control schema.  The groups of a record share
its ten words of data and its five pointers, and a pointer a group does not use is null.
The hints do not always have room for a whole message; they have for an exchange and for an
event frame whose texts are short, as all the texts are that the program itself puts there.
-/

namespace JackalopeFs.ControlSizes

open ControlConversions ControlMessages FrameCodec WireConversions WordLayout
open WireMessages (Bytes)

section Layout

def wordsOfText (bytes : Bytes) : ℕ :=
  text bytes.length

def wordsOfNames : ControlSchema.Names → ℕ
  | .some names => struct 1 [pointerList (names.map wordsOfText)]
  | .none | .all | .notInSchema _ => struct 1 [0]

def wordsOfSelection (selection : ControlSchema.Selection) : ℕ :=
  struct 1 [wordsOfNames selection.events, wordsOfNames selection.ops]

def wordsOfBuckets (buckets : List ControlSchema.Bucket) : ℕ :=
  structList (buckets.map fun _ => struct 2 [])

def wordsOfTotalOp (total : ControlSchema.TotalOp) : ℕ :=
  struct 5 [wordsOfText total.level, wordsOfText total.op, wordsOfBuckets total.latency,
    wordsOfBuckets total.sizes]

def wordsOfCounters (counters : ControlSchema.Counters) : ℕ :=
  struct 3 [wordsOfText counters.side, wordsOfText counters.describe,
    structList (counters.events.map fun count => struct 1 [wordsOfText count.name]),
    structList (counters.ops.map wordsOfTotalOp), struct 7 [], struct 2 []]

def wordsOfHandles : ControlSchema.Handles → ℕ
  | .processes rows =>
    struct 1 [structList (rows.map fun row => struct 3 [wordsOfText row.name, wordsOfText row.within])]
  | .sessions rows => struct 1 [structList (rows.map fun row => struct 4 [wordsOfText row.remote])]
  | .notInSchema _ => struct 1 [0]

def wordsOfIds (ids : ControlSchema.Ids) : ℕ :=
  struct 5 [wordsOfText ids.op]

def pointersOfHappened : ControlSchema.Happened → List ℕ
  | .event name ids detail => [wordsOfText name, wordsOfIds ids, wordsOfText detail, 0, 0]
  | .request request =>
    [wordsOfText request.level, wordsOfIds request.ids,
      structList (request.phases.map fun phase => struct 1 [wordsOfText phase.name]), 0, 0]
  | .exchange x =>
    [wordsOfText x.side, wordsOfIds x.ids, blob x.request.length, blob x.reply.length,
      wordsOfText x.outcome]
  | .undecodable side ids error body =>
    [wordsOfText side, wordsOfIds ids, wordsOfText error, blob body.length, 0]
  | .eventFrame side ids _ body _ => [wordsOfText side, wordsOfIds ids, blob body.length, 0, 0]
  | .header _ _ side _ describe selection =>
    [wordsOfText side, wordsOfText describe, wordsOfSelection selection, 0, 0]
  | .census ops _ => [structList (ops.map fun op => struct 3 [wordsOfText op.op]), 0, 0, 0, 0]
  | .dropped _ | .notInSchema _ => [0, 0, 0, 0, 0]

def wordsOfRecord (record : ControlSchema.Record) : ℕ :=
  struct 10 (pointersOfHappened record.which)

/-- A reply has a word for which it is, and one pointer. -/
def replyWords : ControlSchema.ControlReply → ℕ
  | .counters counters => message (struct 1 [wordsOfCounters counters])
  | .record record => message (struct 1 [wordsOfRecord record])
  | .refused why => message (struct 1 [wordsOfText why])
  | .handles handles => message (struct 1 [wordsOfHandles handles])
  | .notInSchema _ => message (struct 1 [0])

/-- What the frame body of a record takes: its segment table and its words. -/
def recordBytes (record : Record) : ℕ :=
  8 + 8 * replyWords (Message.build (ControlReply.record record))

end Layout

section Captured

variable {capnp : Capnp ControlSchema.ControlReply} {these : Set ControlSchema.ControlReply} {record : Record}

/-- As short as the texts are that the program itself has: sides, operations and outcomes. -/
def Short (text : String) : Prop :=
  text.utf8ByteSize ≤ 16

def Terse (record : Record) : Prop :=
  match record.what with
  | .exchange x => Short x.side ∧ Short (x.ids.op.getD "") ∧ Short x.outcome
  | .eventFrame side ids _ _ _ => Short side ∧ Short (ids.op.getD "")
  | _ => False

theorem wordsOfText_le {s : String} (short : Short s) : wordsOfText (ofText s) ≤ 3 := by
  change (s.utf8ByteSize + 8) / 8 ≤ 3
  unfold Short at short
  omega

theorem wordsOfIds_le {ids : Ids} (short : Short (ids.op.getD "")) : wordsOfIds (buildIds ids) ≤ 9 := by
  have := wordsOfText_le short
  change 5 + 1 + (wordsOfText (ofText (ids.op.getD "")) + 0) ≤ 9
  omega

theorem replyWords_le_sizeHint (terse : Terse record) :
    replyWords (Message.build (ControlReply.record record)) ≤ Message.sizeHint (ControlReply.record record) := by
  obtain ⟨atNs, what⟩ := record
  cases what with
  | exchange x =>
    obtain ⟨side, op, outcome⟩ := terse
    have side := wordsOfText_le side
    have ids := wordsOfIds_le op
    have outcome := wordsOfText_le outcome
    change 1 + (1 + 1 + (10 + 5 + (wordsOfText (ofText x.side) + (wordsOfIds (buildIds x.ids) +
      (blob x.request.length + (blob x.reply.length + (wordsOfText (ofText x.outcome) + 0))))) + 0)) ≤
        48 + (x.request.length + x.reply.length) / 8
    unfold blob
    omega
  | eventFrame side ids _ _ body =>
    obtain ⟨short, op⟩ := terse
    have side := wordsOfText_le short
    have ids := wordsOfIds_le op
    change 1 + (1 + 1 + (10 + 5 + (wordsOfText (ofText _) + (wordsOfIds (buildIds _) +
      (blob body.length + (0 + (0 + 0))))) + 0)) ≤ 32 + body.length / 8
    unfold blob
    omega
  | _ => exact terse.elim

theorem sizeHint_le (terse : Terse record) :
    Message.sizeHint (ControlReply.record record) ≤ 48 + recordBytes record := by
  obtain ⟨atNs, what⟩ := record
  cases what with
  | exchange x =>
    change 48 + (x.request.length + x.reply.length) / 8 ≤ 48 + (8 + 8 * (1 + (1 + 1 + (10 + 5 +
      (wordsOfText (ofText x.side) + (wordsOfIds (buildIds x.ids) + (blob x.request.length +
        (blob x.reply.length + (wordsOfText (ofText x.outcome) + 0))))) + 0))))
    unfold blob
    omega
  | eventFrame _ _ _ _ body =>
    change 32 + body.length / 8 ≤ 48 + (8 + 8 * (1 + (1 + 1 + (10 + 5 + (wordsOfText (ofText _) +
      (wordsOfIds (buildIds _) + (blob body.length + (0 + (0 + 0))))) + 0))))
    unfold blob
    omega
  | _ => exact terse.elim

section

variable (lays : Lays capnp replyWords these) (mem : Message.build (ControlReply.record record) ∈ these) (terse : Terse record)

include lays mem terse

theorem encode_record
    (small : Message.sizeHint (ControlReply.record record) < 2 ^ 32) :
    ∃ segment, 8 + segment.length = recordBytes record ∧
      encode capnp (ControlReply.record record) = frameOneSegment segment := by
  obtain ⟨segment, encoded, length⟩ := encode_of_lays lays (ControlReply.record record) mem
    (replyWords_le_sizeHint terse) small
  refine ⟨segment, ?_, encoded⟩
  unfold recordBytes
  rw [length]

theorem encode_record_of_le
    (fits : recordBytes record ≤ maxFrame) :
    ∃ frame, encode capnp (ControlReply.record record) = .ok frame := by
  have hint := sizeHint_le terse
  obtain ⟨segment, length, encoded⟩ := encode_record lays mem terse (by unfold maxFrame at fits; omega)
  obtain ⟨frame, framed, -⟩ := frameOneSegment_of_le (length ▸ fits)
  exact ⟨frame, encoded.trans framed⟩

theorem encode_record_of_lt
    (small : Message.sizeHint (ControlReply.record record) < 2 ^ 32) (long : maxFrame < recordBytes record) :
    encode capnp (ControlReply.record record) = .error (.tooLarge (recordBytes record)) := by
  obtain ⟨segment, length, encoded⟩ := encode_record lays mem terse small
  rw [encoded, ← length]
  exact frameOneSegment_of_lt (length ▸ long)

end

end Captured

end JackalopeFs.ControlSizes
