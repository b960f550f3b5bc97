import JackalopeFs.ControlMessages
import JackalopeFs.FrameCodec
import JackalopeFs.PlainText

/-! # The tables the control tool writes

The tool shows what a process says of itself: its counters, its rates and its open handles.
Every text comes from that process or from a file it serves, so none may act on the
terminal or pass for a row of the tool's own.  Each text is cleaned before it goes into a
row, so a table has the rows the tool writes and no other.
-/

namespace JackalopeFs.TerminalTables

open ControlMessages PlainText
open FrameCodec (Capnp ErrorCodec)
open WireMessages (Bytes Event Request Response)

section Cleaning

def clean (text : Text) : Text :=
  text.flatMap fun c => if isControl c then escapeDefault c else [c]

def cleanKeepingLines (text : Text) : Text :=
  joinLines ((lines text).map clean)

theorem clean_append (a b : Text) : clean (a ++ b) = clean a ++ clean b :=
  List.flatMap_append

@[simp] theorem plain_clean (text : Text) : Plain (clean text) := by
  apply plain_flatMap
  intro c _
  split_ifs with control
  · exact plain_escapeDefault c
  · simp [control]

theorem indented_clean {text : Text} (indented : "  ".toList <+: text) :
    "  ".toList <+: clean text := by
  obtain ⟨rest, rfl⟩ := indented
  have spaces : clean "  ".toList = "  ".toList := by decide
  rw [clean_append, spaces]
  exact List.prefix_append _ _

theorem indented_stripReturn (text : Text) (indented : "  ".toList <+: text) :
    "  ".toList <+: stripReturn text := by
  obtain ⟨rest, rfl⟩ := indented
  unfold stripReturn
  split_ifs with ends
  · cases rest with
    | nil => exact absurd ends (by decide)
    | cons c rest =>
      rw [List.dropLast_append_of_ne_nil (List.cons_ne_nil c rest)]
      exact List.prefix_append _ _
  · exact List.prefix_append _ _

end Cleaning

section Numbers

/-- What the tool leaves to its libraries: reading frames, the words for what is wrong with one,
a message's debug form, and a number with a fixed count of decimals. -/
structure Formats where
  request : Capnp WireSchema.Request
  response : Capnp WireSchema.Response
  event : Capnp WireSchema.Event
  error : Bytes → ErrorCodec → Text
  error_oneLine : ∀ body e, OneLine (error body e)
  debugRequest : Request → Text
  debugResponse : Response → Text
  debugEvent : Event → Text
  fixed : ℕ → Float → Text
  fixed_plain : ∀ decimals value, Plain (fixed decimals value)

variable (formats : Formats)

def fmtNs (ns : UInt64) : Text :=
  if ns < 1_000 then decimal ns.toNat ++ "ns".toList
  else if ns < 1_000_000 then formats.fixed 1 (ns.toFloat / 1e3) ++ "us".toList
  else if ns < 1_000_000_000 then formats.fixed 2 (ns.toFloat / 1e6) ++ "ms".toList
  else formats.fixed 2 (ns.toFloat / 1e9) ++ "s".toList

def units : List String :=
  ["B", "KiB", "MiB", "GiB", "TiB"]

/-- Divide by 1024 while the value is as large, up to `more` times. -/
def scale (value : Float) (unit : ℕ) : ℕ → Float × ℕ
  | 0 => (value, unit)
  | more + 1 => if value ≥ 1024.0 then scale (value / 1024.0) (unit + 1) more else (value, unit)

def fmtBytes (bytes : Float) : Text :=
  let scaled := scale bytes 0 (units.length - 1)
  let unit := (units.getD scaled.2 "").toList
  if scaled.2 = 0 then formats.fixed 0 scaled.1 ++ unit else formats.fixed 1 scaled.1 ++ unit

def fmtCount (n : Float) : Text :=
  if n ≥ 1e6 then formats.fixed 1 (n / 1e6) ++ "M".toList
  else if n ≥ 1e3 then formats.fixed 1 (n / 1e3) ++ "k".toList
  else formats.fixed 1 n

end Numbers

section Tables

variable (formats : Formats)

structure RateResources where
  userCores : Float
  sysCores : Float
  switchesPerSecond : Float
  workers : UInt32
  busyCores : Float
  parksPerSecond : Float
  cpuNsPerRequest : Option Float
  switchesPerRequest : Option Float
  cpuNsPerMib : Option Float

structure RateEvent where
  name : String
  perSecond : Float
  total : UInt64

structure RateOp where
  level : String
  op : String
  perSecond : Float
  bytesPerSecond : Float
  meanNs : Option UInt64
  p50Ns : Option UInt64
  p99Ns : Option UInt64
  sizeP50 : Option UInt64
  errorsPerSecond : Float
  total : UInt64

/-- What the process spends, in all and per request served. -/
def fmtResources (r : RateResources) : Text :=
  let perRequest :=
    match r.cpuNsPerRequest, r.switchesPerRequest with
    | some cpu, some switches =>
      fmtNs formats cpu.toUInt64 ++ " CPU and ".toList ++ formats.fixed 1 switches ++
        " switches per request".toList
    | _, _ => "no requests".toList
  let perMib :=
    match r.cpuNsPerMib with
    | some cpu => ", ".toList ++ fmtNs formats cpu.toUInt64 ++ " CPU per MiB".toList
    | none => []
  "CPU ".toList ++ formats.fixed 2 (r.userCores + r.sysCores) ++ " cores (user ".toList ++
    formats.fixed 2 r.userCores ++ ", sys ".toList ++ formats.fixed 2 r.sysCores ++ "), ".toList ++
    fmtCount formats r.switchesPerSecond ++ " switches/s; ".toList ++ decimal r.workers.toNat ++
    " worker".toList ++ (if r.workers = 1 then [] else ['s']) ++ [' '] ++
    formats.fixed 0 (100.0 * r.busyCores / (max r.workers 1).toFloat) ++ "% busy, ".toList ++
    fmtCount formats r.parksPerSecond ++ " parks/s; ".toList ++ perRequest ++ perMib

def orDash (value : Option UInt64) (f : UInt64 → Text) : Text :=
  value.elim ['-'] f

def topOpRow (op : RateOp) : Text :=
  cells [padRight 8 (clean op.level.toList), padRight 16 (clean op.op.toList),
    padLeft 9 (formats.fixed 1 op.perSecond), padLeft 11 (fmtBytes formats op.bytesPerSecond),
    padLeft 9 (orDash op.sizeP50 fun b => fmtBytes formats b.toFloat),
    padLeft 10 (orDash op.meanNs (fmtNs formats)), padLeft 10 (orDash op.p50Ns (fmtNs formats)),
    padLeft 10 (orDash op.p99Ns (fmtNs formats)), padLeft 8 (formats.fixed 1 op.errorsPerSecond),
    padLeft 10 (decimal op.total.toNat)]

def topEventRow (event : RateEvent) : Text :=
  cells [padRight 26 (clean event.name.toList), padLeft 9 (formats.fixed 1 event.perSecond),
    padLeft 10 (decimal event.total.toNat)]

def topSummary (now : Counters) (seconds : Float) : Text :=
  clean now.side.toList ++ [' '] ++ decimal now.pid.toNat ++ " — ".toList ++
    clean now.describe.toList ++ " — up ".toList ++ fmtNs formats now.uptimeNs ++ ", ".toList ++
    decimal now.inflight.toNat ++ " in flight, ".toList ++
    decimal (now.handles.files + now.handles.dirs).toNat ++ " handles open (".toList ++
    decimal now.handles.files.toNat ++ " files, ".toList ++ decimal now.handles.dirs.toNat ++
    " dirs), every ".toList ++ formats.fixed 1 seconds ++ "s".toList

def topOpHeader : Text :=
  cells [padRight 8 "level".toList, padRight 16 "op".toList, padLeft 9 "per sec".toList,
    padLeft 11 "bytes/s".toList, padLeft 9 "size p50".toList, padLeft 10 "mean".toList,
    padLeft 10 "p50".toList, padLeft 10 "p99".toList, padLeft 8 "err/s".toList,
    padLeft 10 "total".toList]

def topEventHeader : Text :=
  cells [padRight 26 "event".toList, padLeft 9 "per sec".toList, padLeft 10 "total".toList]

/-- The screen for the reading `now` and the rates since the last. -/
def renderTop (now : Counters) (resources : Option RateResources) (events : List RateEvent)
    (ops : List RateOp) (seconds : Float) : Text :=
  writeln (topSummary formats now seconds) ++
    (resources.elim [] fun resources => writeln (fmtResources formats resources)) ++
    writeln ('\n' :: topOpHeader) ++ (ops.flatMap fun op => writeln (topOpRow formats op)) ++
    writeln ('\n' :: topEventHeader) ++
    events.flatMap fun event => writeln (topEventRow formats event)

def put (key value : Text) : Text :=
  key ++ [' '] ++ value

def processFigures (c : Counters) : List (String × Text) :=
  [("side", clean c.side.toList), ("pid", decimal c.pid.toNat),
    ("uptime_ns", decimal c.uptimeNs.toNat), ("inflight", decimal c.inflight.toNat),
    ("handles.files", decimal c.handles.files.toNat),
    ("handles.dirs", decimal c.handles.dirs.toNat),
    ("resources.user_ns", decimal c.resources.userNs.toNat),
    ("resources.sys_ns", decimal c.resources.sysNs.toNat),
    ("resources.voluntary_switches", decimal c.resources.voluntarySwitches.toNat),
    ("resources.involuntary_switches", decimal c.resources.involuntarySwitches.toNat),
    ("resources.workers", decimal c.resources.workers.toNat),
    ("resources.busy_ns", decimal c.resources.busyNs.toNat),
    ("resources.parks", decimal c.resources.parks.toNat)]

def opKey (t : TotalOp) : Text :=
  "op.".toList ++ clean t.level.toList ++ ['.'] ++ clean t.op.toList

def opFigures (t : TotalOp) : List (String × ℕ) :=
  [(".count", t.count.toNat), (".bytes", t.bytes.toNat), (".items", t.items.toNat),
    (".errors", t.errors.toNat), (".total_ns", t.totalNs.toNat)]

def bucketRow (t : TotalOp) (histogram : String) (b : Bucket) : Text :=
  put (opKey t ++ histogram.toList ++ decimal b.upper.toNat) (decimal b.count.toNat)

def opLines (t : TotalOp) : Text :=
  ((opFigures t).flatMap fun figure =>
      writeln (put (opKey t ++ figure.1.toList) (decimal figure.2))) ++
    (t.latency.flatMap fun b => writeln (bucketRow t ".latency_ns_le." b)) ++
    t.sizes.flatMap fun b => writeln (bucketRow t ".bytes_le." b)

def eventRow (event : String × UInt64) : Text :=
  put ("event.".toList ++ clean event.1.toList) (decimal event.2.toNat)

/-- The counters as `key value` lines, one figure each. -/
def counterLines (c : Counters) : Text :=
  ((processFigures c).flatMap fun figure => writeln (put figure.1.toList figure.2)) ++
    (c.events.flatMap fun event => writeln (eventRow event)) ++ c.ops.flatMap opLines

def largestFirst {α : Type} (files dirs : α → UInt64) (rows : List α) : List α :=
  rows.insertionSort fun a b => files b + dirs b ≤ files a + dirs a

def processRow (r : HandlesProcess) : Text :=
  let pid := if r.pid = 0 then ['?'] else decimal r.pid.toNat
  let name := if r.pid = 0 then "(unattributed)".toList else clean r.name.toList
  cells [padLeft 8 pid, padRight 16 name, padLeft 8 (decimal r.files.toNat),
    padLeft 8 (decimal r.dirs.toNat)] ++ "  ".toList ++ clean r.within.toList

def sessionRow (r : HandlesSession) : Text :=
  cells [padLeft 8 (decimal r.session.toNat), padRight 40 (clean r.remote.toList),
    padRight 9 r.state.asStr.toList, padLeft 8 (decimal r.files.toNat),
    padLeft 8 (decimal r.dirs.toNat)]

def processHeader : Text :=
  cells [padLeft 8 "pid".toList, padRight 16 "process".toList, padLeft 8 "files".toList,
    padLeft 8 "dirs".toList] ++ "  within".toList

def sessionHeader : Text :=
  cells [padLeft 8 "session".toList, padRight 40 "client".toList, padRight 9 "state".toList,
    padLeft 8 "files".toList, padLeft 8 "dirs".toList]

def totalRow (files dirs : UInt64) : Text :=
  decimal (files + dirs).toNat ++ " handles open: ".toList ++ decimal files.toNat ++
    " files, ".toList ++ decimal dirs.toNat ++ " dirs".toList

/-- A listing of `rows` under its header, the largest first, then the total. -/
def listing {α : Type} (header : Text) (row : α → Text) (files dirs : α → UInt64)
    (rows : List α) : Text :=
  let rows := largestFirst files dirs rows
  let total := rows.foldl (fun sum r => (sum.1 + files r, sum.2 + dirs r)) (0, 0)
  writeln header ++ (rows.flatMap fun r => writeln (row r)) ++ writeln (totalRow total.1 total.2)

/-- The handles a process holds: on a client by the process that opened them, on a server by
session. -/
def fmtHandles : Handles → Text
  | .processes rows => listing processHeader processRow (·.files) (·.dirs) rows
  | .sessions rows => listing sessionHeader sessionRow (·.files) (·.dirs) rows

end Tables

section Rows

variable (formats : Formats)

@[simp] theorem plain_fmtNs (ns : UInt64) : Plain (fmtNs formats ns) := by
  unfold fmtNs
  split_ifs <;> rw [plain_append]
  · exact ⟨plain_decimal _, by decide⟩
  · exact ⟨formats.fixed_plain _ _, by decide⟩
  · exact ⟨formats.fixed_plain _ _, by decide⟩
  · exact ⟨formats.fixed_plain _ _, by decide⟩

theorem plain_unit (unit : ℕ) : Plain (units.getD unit "").toList := by
  match unit with
  | 0 | 1 | 2 | 3 | 4 => decide
  | n + 5 => exact plain_nil

@[simp] theorem plain_fmtBytes (bytes : Float) : Plain (fmtBytes formats bytes) := by
  unfold fmtBytes
  simp only
  split_ifs <;> exact (plain_append _ _).mpr ⟨formats.fixed_plain _ _, plain_unit _⟩

@[simp] theorem plain_fmtCount (n : Float) : Plain (fmtCount formats n) := by
  unfold fmtCount
  split_ifs
  · exact (plain_append _ _).mpr ⟨formats.fixed_plain _ _, by decide⟩
  · exact (plain_append _ _).mpr ⟨formats.fixed_plain _ _, by decide⟩
  · exact formats.fixed_plain _ _

@[simp] theorem plain_orDash (value : Option UInt64) {f : UInt64 → Text}
    (plain : ∀ n, Plain (f n)) : Plain (orDash value f) := by
  cases value with
  | none => exact (by decide : Plain ['-'])
  | some n => exact plain n

theorem plain_fmtResources (r : RateResources) : Plain (fmtResources formats r) := by
  have fixed := formats.fixed_plain
  unfold fmtResources
  simp only [plain_append, fixed, plain_decimal, plain_fmtCount, and_true]
  refine ⟨⟨?_, ?_⟩, ?_⟩
  · split_ifs <;> decide
  · split
    · simp only [plain_append, fixed, plain_fmtNs, true_and, and_true]
      decide
    · decide
  · split
    · simp only [plain_append, plain_fmtNs, and_true]
      decide
    · exact plain_nil

theorem plain_topSummary (now : Counters) (seconds : Float) :
    Plain (topSummary formats now seconds) := by
  simp only [topSummary, plain_append, plain_clean, plain_decimal, plain_fmtNs,
    formats.fixed_plain, true_and, and_true]
  decide

theorem plain_topOpRow (op : RateOp) : Plain (topOpRow formats op) := by
  simp only [topOpRow, cells_cons_cons, cells_singleton, plain_append, plain_padLeft,
    plain_padRight, plain_clean, plain_decimal, plain_fmtNs, plain_fmtBytes, plain_orDash,
    formats.fixed_plain, implies_true, true_and, and_true]
  decide

theorem plain_topEventRow (event : RateEvent) : Plain (topEventRow formats event) := by
  simp only [topEventRow, cells_cons_cons, cells_singleton, plain_append, plain_padLeft,
    plain_padRight, plain_clean, plain_decimal, formats.fixed_plain, true_and, and_true]
  decide

/-- The screen has a summary, the resources if they are known, and a row for each operation and
each event under a header with an empty line before it. -/
theorem rows_renderTop (now : Counters) (resources : Option RateResources)
    (events : List RateEvent) (ops : List RateOp) (seconds : Float) :
    Rows (1 + resources.toList.length + 2 + ops.length + 2 + events.length)
      (renderTop formats now resources events ops seconds) := by
  have known : Rows resources.toList.length
      (resources.elim [] fun resources => writeln (fmtResources formats resources)) := by
    cases resources with
    | none => exact rows_nil
    | some r => exact rows_writeln (plain_fmtResources formats r)
  have opHeader : Plain topOpHeader := by decide
  have eventHeader : Plain topEventHeader := by decide
  unfold renderTop
  apply Rows.append
  · apply Rows.append
    · apply Rows.append
      · apply Rows.append
        · exact (rows_writeln (plain_topSummary formats now seconds)).append known
        · exact rows_blank_writeln opHeader
      · exact rows_each fun op _ => plain_topOpRow formats op
    · exact rows_blank_writeln eventHeader
  · exact rows_each fun event _ => plain_topEventRow formats event

theorem plain_put {key value : Text} (named : Plain key) (plain : Plain value) :
    Plain (put key value) := by
  rw [put, plain_append, plain_append]
  exact ⟨⟨named, by decide⟩, plain⟩

theorem plain_opKey (t : TotalOp) : Plain (opKey t) := by
  simp only [opKey, plain_append, plain_clean, and_true]
  decide

theorem rows_opLines (t : TotalOp) :
    Rows (5 + t.latency.length + t.sizes.length) (opLines t) := by
  have figures : ∀ figure ∈ opFigures t, Plain figure.1.toList := by
    simp only [opFigures, List.forall_mem_cons]
    decide
  have buckets : ∀ {histogram : String} (b : Bucket), Plain histogram.toList →
      Plain (bucketRow t histogram b) := by
    intro histogram b plain
    apply plain_put _ (plain_decimal _)
    rw [plain_append, plain_append]
    exact ⟨⟨plain_opKey t, plain⟩, plain_decimal _⟩
  unfold opLines
  apply Rows.append
  · apply Rows.append
    · apply rows_each
      intro figure mem
      exact plain_put ((plain_append _ _).mpr ⟨plain_opKey t, figures figure mem⟩) (plain_decimal _)
    · exact rows_each fun b _ => buckets b (by decide)
  · exact rows_each fun b _ => buckets b (by decide)

/-- One row for each figure: of the process, of each event, and of each operation with the buckets
of its histograms. -/
theorem rows_counterLines (c : Counters) :
    Rows (13 + c.events.length + (c.ops.map fun t => 5 + t.latency.length + t.sizes.length).sum)
      (counterLines c) := by
  have figures : ∀ figure ∈ processFigures c, Plain figure.1.toList ∧ Plain figure.2 := by
    simp only [processFigures, List.forall_mem_cons, plain_clean, plain_decimal, and_true]
    decide
  unfold counterLines
  apply Rows.append
  · apply Rows.append
    · apply rows_each
      intro figure mem
      exact plain_put (figures figure mem).1 (figures figure mem).2
    · apply rows_each
      intro event _
      exact plain_put ((plain_append _ _).mpr ⟨by decide, plain_clean _⟩) (plain_decimal _)
  · exact rows_flatMap fun t _ => rows_opLines t

theorem plain_processRow (r : HandlesProcess) : Plain (processRow r) := by
  simp only [processRow, cells_cons_cons, cells_singleton, plain_append, plain_padLeft,
    plain_padRight, plain_clean, plain_decimal, and_true]
  split_ifs
  · decide
  · simp only [plain_clean, plain_decimal, true_and]
    decide

theorem plain_sessionRow (r : HandlesSession) : Plain (sessionRow r) := by
  have state : Plain r.state.asStr.toList := by
    cases r.state <;> decide
  simp only [sessionRow, cells_cons_cons, cells_singleton, plain_append, plain_padLeft,
    plain_padRight, plain_clean, plain_decimal, state, true_and, and_true]
  decide

theorem plain_totalRow (files dirs : UInt64) : Plain (totalRow files dirs) := by
  simp only [totalRow, plain_append, plain_decimal, true_and, and_true]
  decide

theorem rows_listing {α : Type} {header : Text} {row : α → Text} (files dirs : α → UInt64)
    (rows : List α) (named : Plain header) (plain : ∀ r, Plain (row r)) :
    Rows (1 + rows.length + 1) (listing header row files dirs rows) := by
  have sorted : (largestFirst files dirs rows).length = rows.length :=
    List.length_insertionSort _ rows
  unfold listing
  rw [← sorted]
  apply Rows.append
  · exact (rows_writeln named).append (rows_each fun r _ => plain r)
  · exact rows_writeln (plain_totalRow _ _)

def rowCount : Handles → ℕ
  | .processes rows => rows.length
  | .sessions rows => rows.length

theorem rows_fmtHandles (handles : Handles) :
    Rows (1 + rowCount handles + 1) (fmtHandles handles) := by
  cases handles with
  | processes rows => exact rows_listing _ _ rows (by decide) plain_processRow
  | sessions rows => exact rows_listing _ _ rows (by decide) plain_sessionRow

end Rows

end JackalopeFs.TerminalTables
