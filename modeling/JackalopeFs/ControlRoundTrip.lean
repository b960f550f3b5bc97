import JackalopeFs.ControlConversions
import JackalopeFs.FrameDelivery

/-! # Control messages survive the wire

Parsing a control message undoes building it.  An optional number is read back from its
bit and its field, at every position of the two bitmaps alike.  What is not read back is
an operation that is given as an empty text, which is how one that is not given is sent.
-/

namespace JackalopeFs.ControlConversions

open ControlMessages FrameCodec List LittleEndian WireConversions
open WireMessages (Bytes)

section Bitmaps

theorem getLsbD_bit : ∀ n i : Fin 8,
    ((1 : UInt8) <<< UInt8.ofNat n.val).toBitVec.getLsbD i.val = (n.val == i.val) := by
  decide +kernel

theorem and_bit_ne_zero : ∀ (bits : Fin 256) (i : Fin 8),
    UInt8.ofNat bits.val &&& ((1 : UInt8) <<< UInt8.ofNat i.val) ≠ 0 ↔
      (UInt8.ofNat bits.val).toBitVec.getLsbD i.val = true := by
  decide +kernel

theorem getLsbD_foldl (entries : List (Option UInt64 × ℕ)) (bits : UInt8) {i : ℕ} (small : i < 8)
    (within : ∀ entry ∈ entries, entry.2 < 8) :
    (entries.foldl (fun bits entry => bits ||| ((1 : UInt8) <<< UInt8.ofNat entry.2))
      bits).toBitVec.getLsbD i =
      (bits.toBitVec.getLsbD i || entries.any fun entry => entry.2 == i) := by
  induction entries generalizing bits with
  | nil => simp
  | cons entry _ ih =>
    have bit := getLsbD_bit ⟨entry.2, within entry mem_cons_self⟩ ⟨i, small⟩
    rw [foldl_cons, ih _ fun e mem => within e (mem_cons_of_mem _ mem), any_cons,
      UInt8.toBitVec_or, BitVec.getLsbD_or, bit, Bool.or_assoc]

theorem getLsbD_present {values : List (Option UInt64)} (short : values.length ≤ 8) {i : ℕ}
    {value : Option UInt64} (at_ : values[i]? = some value) :
    (present values).toBitVec.getLsbD i = value.isSome := by
  have inside : i < values.length := (List.getElem?_eq_some_iff.mp at_).1
  have bits := getLsbD_foldl (values.zipIdx.filter fun entry => entry.1.isSome) 0
    (Nat.lt_of_lt_of_le inside short) fun entry mem => by
      have := snd_lt_of_mem_zipIdx (mem_of_mem_filter mem)
      omega
  have own : ((values.zipIdx.filter fun entry => entry.1.isSome).any fun entry => entry.2 == i) =
      value.isSome := by
    rw [Bool.eq_iff_iff, any_eq_true]
    constructor
    · rintro ⟨⟨found, j⟩, mem, same⟩
      obtain ⟨mem, set⟩ := mem_filter.mp mem
      rw [beq_iff_eq] at same
      rw [mem_zipIdx_iff_getElem?, same, at_] at mem
      cases mem
      exact set
    · intro set
      exact ⟨(value, i), mem_filter.mpr ⟨mem_zipIdx_iff_getElem?.mpr at_, set⟩, beq_self_eq_true i⟩
  have none_ : (0 : UInt8).toBitVec.getLsbD i = false := by simp
  unfold present
  rw [bits, own, none_, Bool.false_or]

/-- A number that goes as a bit and a field is read back, whether it is there or not. -/
theorem optional_present {values : List (Option UInt64)} (short : values.length ≤ 8) {i : ℕ}
    {value : Option UInt64} (at_ : values[i]? = some value) :
    optional (present values) (.ofNat i) (value.getD 0) = value := by
  have inside : i < values.length := (List.getElem?_eq_some_iff.mp at_).1
  have bit := and_bit_ne_zero ⟨(present values).toNat, (present values).toNat_lt⟩
    ⟨i, Nat.lt_of_lt_of_le inside short⟩
  simp only [UInt8.ofNat_toNat, getLsbD_present short at_] at bit
  cases value with
  | none => exact if_neg fun set => by simpa using bit.mp set
  | some => exact if_pos (bit.mpr rfl)

end Bitmaps

section Values

@[simp] theorem text_ofText (string : String) : text (ofText string) = .ok string := by
  simp only [text, ofText, fromUTF8?_toUTF8]

@[simp] theorem mapM_text (strings : List String) : (strings.map ofText).mapM text = .ok strings :=
  mapM_map fun string _ => text_ofText string

@[simp] theorem parseNames_buildNames (names : Names) : parseNames (buildNames names) = .ok names := by
  cases names with
  | some list =>
    simp only [buildNames, parseNames, mapM_text, bind, Except.bind]
    rfl
  | _ => rfl

@[simp] theorem parseSelection_buildSelection (selection : Selection) :
    parseSelection (buildSelection selection) = .ok selection := by
  simp only [buildSelection, parseSelection, parseNames_buildNames, bind, Except.bind]
  rfl

def Ids.named (ids : Ids) : Prop :=
  ids.op ≠ some ""

theorem parseIds_buildIds {ids : Ids} (named : Ids.named ids) : parseIds (buildIds ids) = .ok ids := by
  obtain ⟨session, conn, stream, unique, op⟩ := ids
  have short : [session, conn, stream, unique].length ≤ 8 := by simp
  have first : optional (present [session, conn, stream, unique]) 0 (session.getD 0) = session :=
    optional_present short rfl
  have second : optional (present [session, conn, stream, unique]) 1 (conn.getD 0) = conn :=
    optional_present short rfl
  have third : optional (present [session, conn, stream, unique]) 2 (stream.getD 0) = stream :=
    optional_present short rfl
  have fourth : optional (present [session, conn, stream, unique]) 3 (unique.getD 0) = unique :=
    optional_present short rfl
  have empty : (if (op.getD "").isEmpty then none else some (op.getD "")) = op := by
    cases op with
    | none => rfl
    | some =>
      rw [Option.getD_some, if_neg]
      intro nothing
      exact named (congrArg some (String.isEmpty_iff.mp nothing))
  simp only [buildIds, parseIds, text_ofText, bind, Except.bind, first, second, third, fourth, empty]
  rfl

@[simp] theorem parseBuckets_buildBuckets (buckets : List Bucket) :
    parseBuckets (buildBuckets buckets) = buckets := by
  rw [parseBuckets, buildBuckets, map_map]
  exact map_id'' (fun _ => rfl) _

@[simp] theorem stateFromWire_stateToWire (state : StateSession) :
    stateFromWire (stateToWire state) = .ok state := by
  cases state <;> rfl

end Values

section Records

def Happened.named : Happened → Prop
  | .event _ ids _ | .undecodable _ ids _ _ | .eventFrame _ ids _ _ _ => Ids.named ids
  | .request summary => Ids.named summary.ids
  | .exchange exchange => Ids.named exchange.ids
  | _ => True

theorem parseSummary_buildSummary {s : Summary} (named : Ids.named s.ids) :
    parseSummary (buildSummary s) = .ok s := by
  obtain ⟨level, ids, fh, offset, size, ino, pid, bytes, items, errno, phases, totalNs⟩ := s
  have short : [fh, offset, size, ino, pid.map UInt32.toUInt64].length ≤ 8 := by simp
  have first : optional (present [fh, offset, size, ino, pid.map UInt32.toUInt64]) 0 (fh.getD 0) = fh :=
    optional_present short rfl
  have second : optional (present [fh, offset, size, ino, pid.map UInt32.toUInt64]) 1 (offset.getD 0) =
      offset := optional_present short rfl
  have third : optional (present [fh, offset, size, ino, pid.map UInt32.toUInt64]) 2 (size.getD 0) =
      size := optional_present short rfl
  have fourth : optional (present [fh, offset, size, ino, pid.map UInt32.toUInt64]) 3 (ino.getD 0) =
      ino := optional_present short rfl
  have wide : (pid.getD 0).toUInt64 = (pid.map UInt32.toUInt64).getD 0 := by cases pid <;> rfl
  have fifth : (optional (present [fh, offset, size, ino, pid.map UInt32.toUInt64]) 4
      (pid.getD 0).toUInt64).map UInt64.toUInt32 = pid := by
    have kept : optional (present [fh, offset, size, ino, pid.map UInt32.toUInt64]) 4
        ((pid.map UInt32.toUInt64).getD 0) = pid.map UInt32.toUInt64 := optional_present short rfl
    rw [wide, kept, Option.map_map]
    cases pid <;> simp
  have parsed : (phases.map fun phase => (⟨ofText phase.1, phase.2⟩ : ControlSchema.Phase)).mapM
      parsePhase = .ok phases :=
    mapM_map fun phase _ => by simp only [parsePhase, text_ofText, bind, Except.bind]; rfl
  simp only [buildSummary, parseSummary, text_ofText, parseIds_buildIds named, bind, Except.bind, parsed,
    first, second, third, fourth, fifth]
  rfl

theorem parseExchange_buildExchange {x : Exchange} (named : Ids.named x.ids) :
    parseExchange (buildExchange x) = .ok x := by
  simp only [buildExchange, parseExchange, text_ofText, parseIds_buildIds named, bind, Except.bind]
  rfl

theorem parseCensusOp_buildCensusOp (op : CensusOp) :
    parseCensusOp (buildCensusOp op) = .ok op := by
  simp only [buildCensusOp, parseCensusOp, text_ofText, bind, Except.bind]
  rfl

theorem parseHappened_buildHappened {what : Happened} (named : Happened.named what) :
    parseHappened (buildHappened what) = .ok what := by
  cases what with
  | request =>
    simp only [buildHappened, parseHappened, parseSummary_buildSummary named, bind, Except.bind]
    rfl
  | exchange =>
    simp only [buildHappened, parseHappened, parseExchange_buildExchange named, bind, Except.bind]
    rfl
  | census ops =>
    have parsed := mapM_map fun op (_ : op ∈ ops) => parseCensusOp_buildCensusOp op
    simp only [buildHappened, parseHappened, parsed, bind, Except.bind]
    rfl
  | header =>
    simp only [buildHappened, parseHappened, text_ofText, parseSelection_buildSelection, bind,
      Except.bind]
    rfl
  | dropped => rfl
  | _ =>
    simp only [buildHappened, parseHappened, text_ofText, parseIds_buildIds named, bind, Except.bind]
    rfl

theorem parseRecord_buildRecord {record : Record} (named : Happened.named record.what) :
    parseRecord (buildRecord record) = .ok record := by
  simp only [buildRecord, parseRecord, parseHappened_buildHappened named, bind, Except.bind]
  rfl

end Records

section Replies

theorem parseHandles_buildHandles (handles : Handles) :
    parseHandles (buildHandles handles) = .ok handles := by
  cases handles with
  | processes rows =>
    have parsed : (rows.map buildProcess).mapM parseProcess = .ok rows :=
      mapM_map fun row _ => by simp only [buildProcess, parseProcess, text_ofText, bind, Except.bind]; rfl
    simp only [buildHandles, parseHandles, parsed, bind, Except.bind]
    rfl
  | sessions rows =>
    have parsed : (rows.map buildSession).mapM parseSession = .ok rows :=
      mapM_map fun row _ => by
        simp only [buildSession, parseSession, text_ofText, stateFromWire_stateToWire, bind, Except.bind]
        rfl
    simp only [buildHandles, parseHandles, parsed, bind, Except.bind]
    rfl

theorem parseCounters_buildCounters (c : Counters) : parseCounters (buildCounters c) = .ok c := by
  have events : (c.events.map buildCount).mapM parseCount = .ok c.events :=
    mapM_map fun event _ => by simp only [buildCount, parseCount, text_ofText, bind, Except.bind]; rfl
  have ops : (c.ops.map buildTotalOp).mapM parseTotalOp = .ok c.ops :=
    mapM_map fun op _ => by
      simp only [buildTotalOp, parseTotalOp, text_ofText, parseBuckets_buildBuckets, bind, Except.bind]
      rfl
  simp only [buildCounters, parseCounters, text_ofText, events, ops, bind, Except.bind]
  rfl

def ControlReply.named : ControlReply → Prop
  | .record record => Happened.named record.what
  | _ => True

theorem parse_controlReply {reply : ControlReply} (named : ControlReply.named reply) (words : ℕ) :
    Message.parse (Message.build reply) words = .ok reply := by
  cases reply with
  | counters =>
    simp only [Message.build, Message.parse, parseCounters_buildCounters, bind, Except.bind]
    rfl
  | record =>
    simp only [Message.build, Message.parse, parseRecord_buildRecord named, bind, Except.bind]
    rfl
  | refused =>
    simp only [Message.build, Message.parse, text_ofText, bind, Except.bind]
    rfl
  | handles =>
    simp only [Message.build, Message.parse, parseHandles_buildHandles, bind, Except.bind]
    rfl

theorem parse_controlRequest (request : ControlRequest) (words : ℕ) :
    Message.parse (Message.build request) words = .ok request := by
  obtain ⟨revision, ask⟩ := request
  cases ask with
  | subscribe =>
    simp only [Message.build, Message.parse, buildAsk, parseAsk, parseSelection_buildSelection, bind,
      Except.bind]
    rfl
  | _ => rfl

instance : StructLists ControlSchema.ControlRequest := ⟨fun _ => 0⟩

instance : StructLists ControlSchema.ControlReply := ⟨fun _ => 0⟩

instance : RoundTrip ControlRequest ControlSchema.ControlRequest where
  genuine _ := True
  parse_build request words _ _ := parse_controlRequest request words

instance : RoundTrip ControlReply ControlSchema.ControlReply where
  genuine := ControlReply.named
  parse_build _ words named _ := parse_controlReply named words

end Replies

/-- A request's summary with some numbers set, one of them to zero, and some not. -/
def someSummary : ControlReply :=
  .record ⟨7, .request ⟨"call", ⟨some 0, none, some 4, none, some "read"⟩, none, some 0, some 512, none,
    some 0, 512, 0, 0, [("wait", 9)], 12⟩⟩

end JackalopeFs.ControlConversions
