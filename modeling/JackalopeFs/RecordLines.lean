import JackalopeFs.FrameSizes
import JackalopeFs.RequestSubjects
import JackalopeFs.TerminalTables

/-! # The lines of a record

A record of what a process did is shown as one line, and in the long form with the frames
it holds decoded below.  The line is made of texts as they came, file names among them, and
cleaned as a whole.  The long form puts the frames under the line before it cleans, and
cleans line by line: what was a line feed in a text then ends a line, so the first line is
the record's and the further ones are indented only if no text of the record breaks it.
-/

namespace JackalopeFs.RecordLines

open ControlMessages List PlainText RequestSubjects TerminalTables
open FrameCodec (Capnp ErrorCodec decode)
open WireConversions (Message StructLists)
open WireMessages (Bytes Event Request Response)

section Records

variable (formats : Formats)

/-- A Unix time in nanoseconds as the UTC time of day, to the millisecond. -/
def timeOfDay (atNs : UInt64) : Text :=
  let dayMs := atNs.toNat / 1_000_000 % 86_400_000
  padZeros 2 (decimal (dayMs / 3_600_000)) ++ [':'] ++
    padZeros 2 (decimal (dayMs / 60_000 % 60)) ++ [':'] ++
    padZeros 2 (decimal (dayMs / 1000 % 60)) ++ ['.'] ++ padZeros 3 (decimal (dayMs % 1000))

/-- The figures that are there, each as ` name=value`. -/
def figures (named : List (String × Option UInt64)) : Text :=
  named.flatMap fun figure =>
    figure.2.elim [] fun value => [' '] ++ figure.1.toList ++ ['='] ++ decimal value.toNat

def fmtIds (ids : Ids) : Text :=
  (ids.op.elim [] fun op => " op=".toList ++ op.toList) ++
    figures [("session", ids.session), ("conn", ids.conn), ("stream", ids.stream),
      ("unique", ids.unique)]

def fmtSummary (s : Summary) : Text :=
  s.level.toList ++ [' '] ++ (s.ids.op.getD "?").toList ++ fmtIds s.ids ++
    figures [("ino", s.ino), ("fh", s.fh), ("offset", s.offset), ("size", s.size),
      ("pid", s.pid.map (·.toUInt64))] ++
    (if 0 < s.bytes then " bytes=".toList ++ decimal s.bytes.toNat else []) ++
    (if 0 < s.items then " items=".toList ++ decimal s.items.toNat else []) ++
    (if s.errno ≠ 0 then " errno=".toList ++ signed s.errno.toInt else []) ++
    " total=".toList ++ fmtNs formats s.totalNs ++
    s.phases.flatMap fun phase => [' '] ++ phase.1.toList ++ ['='] ++ fmtNs formats phase.2

def fmtResponse : Response → Text
  | .err errno => "errno ".toList ++ signed errno.toInt
  | .read data => decimal data.length ++ " bytes".toList
  | .written n => decimal n.toNat ++ " written".toList
  | .readdir entries end' =>
    decimal entries.length ++ " entries".toList ++ (if end' then ", end".toList else [])
  | other => (kindName other).toList

def asked (body : Bytes) : Text :=
  match (decode formats.request body : Except ErrorCodec Request) with
  | .ok req => (opName req).toList ++ [' '] ++ subject req
  | .error e => "(request undecodable: ".toList ++ formats.error body e ++ ")".toList

/-- What an exchange's reply said; its data may have been cut out. -/
def answer (body : Bytes) (elided : UInt64) : Text :=
  match (decode formats.response body : Except ErrorCodec Response) with
  | .ok (.read data) =>
    if 0 < elided then decimal elided.toNat ++ " bytes (cut)".toList
    else fmtResponse (.read data)
  | .ok resp => fmtResponse resp
  | .error e => "undecodable (".toList ++ formats.error body e ++ ")".toList

/-- What was asked, what came back, and how long it took. -/
def fmtExchange (x : Exchange) : Text :=
  x.side.toList ++ " exchange ".toList ++ asked formats x.request ++ fmtIds x.ids ++
    " (1 in ".toList ++ decimal x.every.toNat ++ ")".toList ++
    (if 0 < x.requestElided then
      " with ".toList ++ decimal x.requestElided.toNat ++ " bytes (cut)".toList else []) ++
    (if x.outcome = "replied" then
      " -> ".toList ++ answer formats x.reply x.replyElided ++ " in ".toList ++
        fmtNs formats x.elapsedNs
    else " -> no reply: ".toList ++ x.outcome.toList ++ " after ".toList ++
      fmtNs formats x.elapsedNs)

def censusOp (op : CensusOp) : Text :=
  [' '] ++ op.op.toList ++ ['='] ++ decimal op.sampled.toNat ++ ['/'] ++
    (if op.seen = 0 ∧ 0 < op.sampled then ['?'] else decimal op.seen.toNat) ++
    (if 0 < op.dropped then " (".toList ++ decimal op.dropped.toNat ++ " dropped)".toList else [])

def eventItems (body : Bytes) : Text :=
  match (decode formats.event body : Except ErrorCodec Event) with
  | .ok event => decimal event.items.length ++ " change events".toList
  | .error e => "undecodable events (".toList ++ formats.error body e ++ ")".toList

def eventLine (name : String) (ids : Ids) (detail : String) : Text :=
  name.toList ++ fmtIds ids ++ ": ".toList ++ detail.toList

def droppedLine (n : UInt64) : Text :=
  "(".toList ++ decimal n.toNat ++ " records dropped: this reader fell behind)".toList

def undecodableLine (side : String) (ids : Ids) (error : String) (body : Bytes) : Text :=
  side.toList ++ " undecodable frame of ".toList ++ decimal body.length ++ " bytes".toList ++
    fmtIds ids ++ ": ".toList ++ error.toList

def eventFrameLine (side : String) (ids : Ids) (every : UInt32) (seq : UInt64) (body : Bytes) :
    Text :=
  side.toList ++ [' '] ++ eventItems formats body ++ fmtIds ids ++ " seq=".toList ++
    decimal seq.toNat ++ " (1 in ".toList ++ decimal every.toNat ++ ")".toList

def headerLine (h : Header) : Text :=
  "capture of ".toList ++ h.side.toList ++ [' '] ++ decimal h.pid.toNat ++ " (".toList ++
    h.describe.toList ++ "), protocol ".toList ++
    padZeros 16 (hexadecimal h.protoRevision.toNat) ++ ", control ".toList ++
    padZeros 16 (hexadecimal h.controlRevision.toNat)

def censusLine (ops : List CensusOp) (dropped : UInt64) : Text :=
  "census:".toList ++ ops.flatMap censusOp ++
    (if 0 < dropped then ", ".toList ++ decimal dropped.toNat ++ " records dropped".toList else [])

def happenedLine : Happened → Text
  | .event name ids detail => eventLine name ids detail
  | .request summary => fmtSummary formats summary
  | .dropped n => droppedLine n
  | .exchange x => fmtExchange formats x
  | .undecodable side ids error body => undecodableLine side ids error body
  | .eventFrame side ids every seq body => eventFrameLine formats side ids every seq body
  | .header h => headerLine h
  | .census ops dropped => censusLine ops dropped

def lineOf (record : Record) : Text :=
  timeOfDay record.atNs ++ [' '] ++ happenedLine formats record.what

/-- One line for a record, its control characters escaped. -/
def fmtRecord (record : Record) : Text :=
  clean (lineOf formats record)

/-- A message decoded in full, or why it does not decode. -/
def decoded {T Schema : Type} [StructLists Schema] [Message T Schema]
    (capnp : Capnp Schema) (debug : T → Text) (body : Bytes) : Text :=
  match (decode capnp body : Except ErrorCodec T) with
  | .ok message => debug message
  | .error e => "(does not decode: ".toList ++ formats.error body e ++ ")".toList

/-- What a frame adds to a record's line: each line of `text`, indented under `what`. -/
def frame (what : String) (text : Text) : Text :=
  "\n  ".toList ++ what.toList ++ ":".toList ++
    (lines text).flatMap fun line => "\n    ".toList ++ line

def frames : Happened → Text
  | .exchange x =>
    frame "request" (decoded formats formats.request formats.debugRequest x.request) ++
      (if x.reply.isEmpty then [] else
        frame "reply" (decoded formats formats.response formats.debugResponse x.reply))
  | .eventFrame _ _ _ _ body =>
    frame "events" (decoded formats formats.event formats.debugEvent body)
  | _ => []

/-- A record in its long form: its line, then each frame it holds decoded in full, indented. -/
def fmtRecordLong (record : Record) : Text :=
  cleanKeepingLines (lineOf formats record ++ frames formats record.what)

end Records

section OwnWords

variable (formats : Formats)

theorem oneLine_timeOfDay (atNs : UInt64) : OneLine (timeOfDay atNs) := by
  apply Plain.oneLine
  simp only [timeOfDay, plain_append, plain_padZeros, plain_decimal, true_and, and_true]
  decide

@[simp] theorem oneLine_fmtNs (ns : UInt64) : OneLine (fmtNs formats ns) :=
  (plain_fmtNs formats ns).oneLine

theorem oneLine_figures {named : List (String × Option UInt64)}
    (each : ∀ figure ∈ named, OneLine figure.1.toList) : OneLine (figures named) := by
  apply oneLine_flatMap
  intro figure mem
  cases figure.2 with
  | none => exact oneLine_nil
  | some =>
    simp only [Option.elim_some, oneLine_append, each figure mem, oneLine_decimal, and_true]
    decide

theorem oneLine_fmtResponse (resp : Response) : OneLine (fmtResponse resp) := by
  unfold fmtResponse
  split
  · exact (oneLine_append _ _).mpr ⟨by decide, oneLine_signed _⟩
  · exact (oneLine_append _ _).mpr ⟨oneLine_decimal _, by decide⟩
  · exact (oneLine_append _ _).mpr ⟨oneLine_decimal _, by decide⟩
  · rw [oneLine_append, oneLine_append]
    refine ⟨⟨oneLine_decimal _, by decide⟩, ?_⟩
    split_ifs <;> decide
  · exact oneLine_kindName _

theorem oneLine_answer (body : Bytes) (elided : UInt64) :
    OneLine (answer formats body elided) := by
  unfold answer
  split
  · split_ifs
    · exact (oneLine_append _ _).mpr ⟨oneLine_decimal _, by decide⟩
    · exact oneLine_fmtResponse _
  · exact oneLine_fmtResponse _
  · rw [oneLine_append, oneLine_append]
    exact ⟨⟨by decide, formats.error_oneLine _ _⟩, by decide⟩

theorem oneLine_eventItems (body : Bytes) : OneLine (eventItems formats body) := by
  unfold eventItems
  split
  · exact (oneLine_append _ _).mpr ⟨oneLine_decimal _, by decide⟩
  · rw [oneLine_append, oneLine_append]
    exact ⟨⟨by decide, formats.error_oneLine _ _⟩, by decide⟩

end OwnWords

section Unbroken

variable (formats : Formats)

/-- The name of an operation, if there is one, has no line feed. -/
def UnbrokenIds (ids : Ids) : Prop :=
  ∀ op, ids.op = some op → OneLine op.toList

/-- No text of a record has a line feed, and no name in the request it holds. -/
def UnbrokenRecord : Happened → Prop
  | .event name ids detail => OneLine name.toList ∧ UnbrokenIds ids ∧ OneLine detail.toList
  | .request s =>
    OneLine s.level.toList ∧ UnbrokenIds s.ids ∧ ∀ phase ∈ s.phases, OneLine phase.1.toList
  | .dropped _ => True
  | .exchange x =>
    OneLine x.side.toList ∧ UnbrokenIds x.ids ∧ OneLine x.outcome.toList ∧
      ∀ req, decode formats.request x.request = .ok req → Unbroken (namesOf req)
  | .undecodable side ids error _ =>
    OneLine side.toList ∧ UnbrokenIds ids ∧ OneLine error.toList
  | .eventFrame side ids _ _ _ => OneLine side.toList ∧ UnbrokenIds ids
  | .header h => OneLine h.side.toList ∧ OneLine h.describe.toList
  | .census ops _ => ∀ op ∈ ops, OneLine op.op.toList

theorem oneLine_fmtIds {ids : Ids} (free : UnbrokenIds ids) : OneLine (fmtIds ids) := by
  rw [fmtIds, oneLine_append]
  constructor
  · cases named : ids.op with
    | none => exact oneLine_nil
    | some op => exact (oneLine_append _ _).mpr ⟨by decide, free op named⟩
  · apply oneLine_figures
    simp only [forall_mem_cons]
    decide

theorem oneLine_fmtSummary {s : Summary} (level : OneLine s.level.toList)
    (ids : UnbrokenIds s.ids) (phases : ∀ phase ∈ s.phases, OneLine phase.1.toList) :
    OneLine (fmtSummary formats s) := by
  have op : OneLine (s.ids.op.getD "?").toList := by
    cases named : s.ids.op with
    | none => exact (by decide : OneLine "?".toList)
    | some op => exact ids op named
  have numbers : OneLine (figures [("ino", s.ino), ("fh", s.fh), ("offset", s.offset),
      ("size", s.size), ("pid", s.pid.map (·.toUInt64))]) := by
    apply oneLine_figures
    simp only [forall_mem_cons]
    decide
  have optional : ∀ {p : Prop} [Decidable p] {a b : Text}, OneLine a → OneLine b →
      OneLine (if p then a ++ b else []) := by
    intro p _ a b first second
    split_ifs
    · exact (oneLine_append _ _).mpr ⟨first, second⟩
    · exact oneLine_nil
  have bytes := optional (p := 0 < s.bytes) (by decide : OneLine " bytes=".toList)
    (oneLine_decimal s.bytes.toNat)
  have items := optional (p := 0 < s.items) (by decide : OneLine " items=".toList)
    (oneLine_decimal s.items.toNat)
  have errno := optional (p := s.errno ≠ 0) (by decide : OneLine " errno=".toList)
    (oneLine_signed s.errno.toInt)
  have each : OneLine (s.phases.flatMap fun phase =>
      [' '] ++ phase.1.toList ++ ['='] ++ fmtNs formats phase.2) := by
    apply oneLine_flatMap
    intro phase mem
    simp only [oneLine_append, phases phase mem, oneLine_fmtNs, and_true]
    decide
  simp only [fmtSummary, oneLine_append, level, op, oneLine_fmtIds ids, numbers, bytes, items,
    errno, each, oneLine_fmtNs, true_and, and_true]
  decide

theorem oneLine_asked {body : Bytes}
    (names : ∀ req, decode formats.request body = .ok req → Unbroken (namesOf req)) :
    OneLine (asked formats body) := by
  unfold asked
  split
  · next req read =>
    rw [oneLine_append, oneLine_append]
    exact ⟨⟨oneLine_opName req, by decide⟩, oneLine_subject (names req read)⟩
  · rw [oneLine_append, oneLine_append]
    exact ⟨⟨by decide, formats.error_oneLine _ _⟩, by decide⟩

theorem oneLine_fmtExchange {x : Exchange} (side : OneLine x.side.toList)
    (ids : UnbrokenIds x.ids) (outcome : OneLine x.outcome.toList)
    (names : ∀ req, decode formats.request x.request = .ok req → Unbroken (namesOf req)) :
    OneLine (fmtExchange formats x) := by
  have cut : OneLine (if 0 < x.requestElided then
      " with ".toList ++ decimal x.requestElided.toNat ++ " bytes (cut)".toList else []) := by
    split_ifs
    · rw [oneLine_append, oneLine_append]
      exact ⟨⟨by decide, oneLine_decimal _⟩, by decide⟩
    · exact oneLine_nil
  have came : OneLine (if x.outcome = "replied" then
      " -> ".toList ++ answer formats x.reply x.replyElided ++ " in ".toList ++
        fmtNs formats x.elapsedNs
      else " -> no reply: ".toList ++ x.outcome.toList ++ " after ".toList ++
        fmtNs formats x.elapsedNs) := by
    split_ifs
    · simp only [oneLine_append, oneLine_answer, oneLine_fmtNs, and_true]
      decide
    · simp only [oneLine_append, outcome, oneLine_fmtNs, and_true]
      decide
  simp only [fmtExchange, oneLine_append, side, oneLine_asked formats names, oneLine_fmtIds ids,
    oneLine_decimal, cut, came, true_and, and_true]
  decide

theorem oneLine_censusOp {op : CensusOp} (named : OneLine op.op.toList) :
    OneLine (censusOp op) := by
  simp only [censusOp, oneLine_append, named, oneLine_decimal, and_true]
  refine ⟨⟨by decide, ?_⟩, ?_⟩
  · split_ifs
    · decide
    · exact oneLine_decimal _
  · split_ifs
    · simp only [oneLine_append, oneLine_decimal, and_true]
      decide
    · exact oneLine_nil

theorem oneLine_headerLine {h : Header} (side : OneLine h.side.toList)
    (describe : OneLine h.describe.toList) : OneLine (headerLine h) := by
  have revision : ∀ n : ℕ, OneLine (padZeros 16 (hexadecimal n)) := fun n =>
    ((plain_padZeros _ _).mpr (plain_hexadecimal n)).oneLine
  unfold headerLine
  simp only [oneLine_append, side, describe, oneLine_decimal, revision, and_true]
  decide

theorem oneLine_censusLine {ops : List CensusOp} (dropped : UInt64)
    (each : ∀ op ∈ ops, OneLine op.op.toList) : OneLine (censusLine ops dropped) := by
  unfold censusLine
  rw [oneLine_append, oneLine_append]
  refine ⟨⟨by decide, oneLine_flatMap fun op mem => oneLine_censusOp (each op mem)⟩, ?_⟩
  split_ifs
  · simp only [oneLine_append, oneLine_decimal, and_true]
    decide
  · exact oneLine_nil

theorem oneLine_happenedLine {what : Happened} (free : UnbrokenRecord formats what) :
    OneLine (happenedLine formats what) := by
  cases what with
  | event name ids detail =>
    obtain ⟨name, ids, detail⟩ := free
    simp only [happenedLine, eventLine, oneLine_append, name, oneLine_fmtIds ids, detail,
      true_and, and_true]
    decide
  | request =>
    obtain ⟨level, ids, phases⟩ := free
    exact oneLine_fmtSummary formats level ids phases
  | dropped =>
    simp only [happenedLine, droppedLine, oneLine_append, oneLine_decimal, and_true]
    decide
  | exchange =>
    obtain ⟨side, ids, outcome, names⟩ := free
    exact oneLine_fmtExchange formats side ids outcome names
  | undecodable side ids error =>
    obtain ⟨side, ids, error⟩ := free
    simp only [happenedLine, undecodableLine, oneLine_append, side, oneLine_fmtIds ids, error,
      oneLine_decimal, true_and, and_true]
    decide
  | eventFrame side ids =>
    obtain ⟨side, ids⟩ := free
    simp only [happenedLine, eventFrameLine, oneLine_append, side, oneLine_fmtIds ids,
      oneLine_eventItems, oneLine_decimal, true_and, and_true]
    decide
  | header => exact oneLine_headerLine free.1 free.2
  | census _ dropped => exact oneLine_censusLine dropped free

theorem oneLine_lineOf {record : Record} (free : UnbrokenRecord formats record.what) :
    OneLine (lineOf formats record) := by
  rw [lineOf, oneLine_append, oneLine_append]
  exact ⟨⟨oneLine_timeOfDay _, by decide⟩, oneLine_happenedLine formats free⟩

end Unbroken

section LongForm

variable (formats : Formats)

/-- What stands below a line: further lines, indented. -/
def Below (text : Text) : Prop :=
  ∃ further : List Text, text = further.flatMap ('\n' :: ·) ∧
    ∀ line ∈ further, OneLine line ∧ "  ".toList <+: line

theorem below_nil : Below [] :=
  ⟨[], rfl, fun _ mem => absurd mem not_mem_nil⟩

theorem Below.append {a b : Text} (first : Below a) (second : Below b) : Below (a ++ b) := by
  obtain ⟨lines, rfl, indented⟩ := first
  obtain ⟨more, rfl, also⟩ := second
  refine ⟨lines ++ more, flatMap_append.symm, ?_⟩
  intro line mem
  obtain mem | mem := mem_append.mp mem
  · exact indented line mem
  · exact also line mem

theorem below_frame {what : String} (one : OneLine what.toList) (text : Text) :
    Below (frame what text) := by
  refine ⟨("  ".toList ++ what.toList ++ ":".toList) :: (lines text).map ("    ".toList ++ ·), ?_, ?_⟩
  · rw [flatMap_cons, flatMap_map]
    rfl
  · intro line mem
    obtain rfl | mem := mem_cons.mp mem
    · constructor
      · rw [oneLine_append, oneLine_append]
        exact ⟨⟨by decide, one⟩, by decide⟩
      · rw [append_assoc]
        exact prefix_append _ _
    · obtain ⟨shown, among, rfl⟩ := mem_map.mp mem
      constructor
      · exact (oneLine_append _ _).mpr ⟨by decide, oneLine_of_mem_lines among⟩
      · exact ⟨"  ".toList ++ shown, rfl⟩

theorem below_frames (what : Happened) : Below (frames formats what) := by
  unfold frames
  split
  · apply Below.append
    · exact below_frame (by decide) _
    · split_ifs
      · exact below_nil
      · exact below_frame (by decide) _
  · exact below_frame (by decide) _
  · exact below_nil

theorem splitOn_cleanKeepingLines {first below : Text} (some_ : first ≠ []) (one : OneLine first)
    (ended : below = [] ∨ first.getLast? ≠ some '\r') (under : Below below) :
    ∃ further, (cleanKeepingLines (first ++ below)).splitOn '\n' = clean first :: further ∧
      ∀ line ∈ further, "  ".toList <+: line := by
  obtain ⟨further, rfl, each⟩ := under
  have pieces : ∀ piece ∈ first :: further, OneLine piece := by
    intro piece mem
    obtain rfl | mem := mem_cons.mp mem
    · exact one
    · exact (each piece mem).1
  have ended : further = [] ∨ first.getLast? ≠ some '\r' := by
    refine ended.imp_left fun none_ => ?_
    cases further with
    | nil => rfl
    | cons => cases none_
  have split : lines (first ++ further.flatMap ('\n' :: ·)) = first :: linesOfPieces further := by
    rw [← joinLines_cons, lines_joinLines (cons_ne_nil _ _) pieces,
      linesOfPieces_cons further some_ ended]
  refine ⟨(linesOfPieces further).map clean, ?_, ?_⟩
  · rw [cleanKeepingLines, split]
    apply splitOn_joinLines (cons_ne_nil _ _)
    rw [← map_cons]
    exact forall_mem_map.mpr fun text _ => (plain_clean text).oneLine
  · intro line mem
    obtain ⟨text, among, rfl⟩ := mem_map.mp mem
    apply indented_clean
    exact mem_linesOfPieces indented_stripReturn (fun piece mem => (each piece mem).2) text among

theorem plain_of_mem_cleanKeepingLines {text line : Text}
    (mem : line ∈ (cleanKeepingLines text).splitOn '\n') : Plain line := by
  by_cases none_ : lines text = []
  · rw [cleanKeepingLines, none_] at mem
    rw [mem_singleton.mp mem]
    exact plain_nil
  · rw [cleanKeepingLines, splitOn_joinLines] at mem
    · obtain ⟨cleaned, _, rfl⟩ := mem_map.mp mem
      exact plain_clean cleaned
    · exact fun empty => none_ (map_eq_nil_iff.mp empty)
    · intro piece here
      obtain ⟨cleaned, _, rfl⟩ := mem_map.mp here
      exact (plain_clean cleaned).oneLine

theorem getLast?_append_some {a b : Text} {c : Char} (last : b.getLast? = some c) :
    (a ++ b).getLast? = some c := by
  rw [getLast?_append, last]
  rfl

theorem getLast?_fmtNs (ns : UInt64) : (fmtNs formats ns).getLast? = some 's' := by
  unfold fmtNs
  split_ifs <;> exact getLast?_append_some rfl

theorem ended_lineOf (record : Record) :
    frames formats record.what = [] ∨ (lineOf formats record).getLast? ≠ some '\r' := by
  cases what : record.what with
  | exchange x =>
    right
    have last : (happenedLine formats (.exchange x)).getLast? = some 's' := by
      apply getLast?_append_some
      split_ifs <;> exact getLast?_append_some (getLast?_fmtNs formats _)
    rw [lineOf, what, getLast?_append_some last]
    decide
  | eventFrame side ids every seq body =>
    right
    have last : (happenedLine formats (.eventFrame side ids every seq body)).getLast? =
        some ')' := getLast?_append_some rfl
    rw [lineOf, what, getLast?_append_some last]
    decide
  | _ => exact .inl rfl

theorem lineOf_ne_nil (record : Record) : lineOf formats record ≠ [] := by
  simp [lineOf]

end LongForm

section Terminal

variable (formats : Formats)

/-- Libraries that read no frame and show every message and number alike. -/
def unreading : Formats where
  request := Capnp.among (fun _ => 1) [] (by simp) (by simp) (by decide)
  response := Capnp.among (fun _ => 1) [] (by simp) (by simp) (by decide)
  event := Capnp.among (fun _ => 1) [] (by simp) (by simp) (by decide)
  error _ _ := "bad frame".toList
  error_oneLine _ _ := by decide
  debugRequest _ := "Request".toList
  debugResponse _ := "Response".toList
  debugEvent _ := "Event".toList
  fixed _ _ := "0.0".toList
  fixed_plain _ _ := by decide

def noIds : Ids :=
  { session := none, conn := none, stream := none, unique := none, op := none }

/-- An exchange with a body that is too short on both sides. -/
def undecodedExchange : Record where
  atNs := 5
  what := .exchange
    { side := "client", ids := noIds, every := 1, request := [1], requestElided := 0, reply := [2],
      replyElided := 0, outcome := "replied", elapsedNs := 7 }

def idle : Counters where
  side := "client"
  pid := 3
  describe := "idle"
  uptimeNs := 1
  inflight := 0
  events := []
  ops := []
  resources :=
    { userNs := 0, sysNs := 0, voluntarySwitches := 0, involuntarySwitches := 0, workers := 1,
      busyNs := 0, parks := 0 }
  handles := { files := 0, dirs := 0 }

end Terminal

end JackalopeFs.RecordLines
