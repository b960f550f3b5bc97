import JackalopeFs.ControlMessages
import JackalopeFs.WireConversions

/-! # Building and parsing the control messages

The control messages as their schema has them, and how they are filled and read.  Optional
numbers go as zeros with a bitmap of those that are set, and an operation that is not given
goes as an empty text.  The peer is the same user on the same host: parsing checks the
shape of what it reads and nothing more, so no list is measured against its message.
-/

namespace JackalopeFs.ControlSchema

open WireMessages (Bytes)

inductive Names where
  | none
  | all
  | some (names : List Bytes)
  | notInSchema (discriminant : UInt16)
  deriving DecidableEq, Repr

structure Selection where
  events : Names
  ops : Names
  frames : Bool
  every : UInt32
  payloads : Bool
  deriving DecidableEq, Repr

inductive Ask where
  | counters
  | subscribe (selection : Selection)
  | census
  | handles
  | notInSchema (discriminant : UInt16)
  deriving DecidableEq, Repr

structure ControlRequest where
  revision : UInt64
  which : Ask
  deriving DecidableEq, Repr

structure Count where
  name : Bytes
  value : UInt64
  deriving DecidableEq, Repr

structure Bucket where
  upper : UInt64
  count : UInt64
  deriving DecidableEq, Repr

structure TotalOp where
  level : Bytes
  op : Bytes
  count : UInt64
  bytes : UInt64
  items : UInt64
  errors : UInt64
  totalNs : UInt64
  latency : List Bucket
  sizes : List Bucket
  deriving DecidableEq, Repr

structure Resources where
  userNs : UInt64
  sysNs : UInt64
  voluntarySwitches : UInt64
  involuntarySwitches : UInt64
  workers : UInt32
  busyNs : UInt64
  parks : UInt64
  deriving DecidableEq, Repr

structure HandlesTotals where
  files : UInt64
  dirs : UInt64
  deriving DecidableEq, Repr

structure Counters where
  side : Bytes
  pid : UInt32
  describe : Bytes
  uptimeNs : UInt64
  inflight : UInt64
  events : List Count
  ops : List TotalOp
  resources : Resources
  handles : HandlesTotals
  deriving DecidableEq, Repr

structure HandlesProcess where
  pid : UInt32
  name : Bytes
  files : UInt64
  dirs : UInt64
  within : Bytes
  deriving DecidableEq, Repr

structure HandlesSession where
  session : UInt64
  remote : Bytes
  state : UInt16
  files : UInt64
  dirs : UInt64
  deriving DecidableEq, Repr

inductive Handles where
  | processes (rows : List HandlesProcess)
  | sessions (rows : List HandlesSession)
  | notInSchema (discriminant : UInt16)
  deriving DecidableEq, Repr

structure Ids where
  present : UInt8
  session : UInt64
  conn : UInt64
  stream : UInt64
  unique : UInt64
  op : Bytes
  deriving DecidableEq, Repr

structure Phase where
  name : Bytes
  ns : UInt64
  deriving DecidableEq, Repr

structure CensusOp where
  op : Bytes
  seen : UInt64
  sampled : UInt64
  dropped : UInt64
  deriving DecidableEq, Repr

structure Request where
  level : Bytes
  ids : Ids
  present : UInt8
  fh : UInt64
  offset : UInt64
  size : UInt64
  bytes : UInt64
  items : UInt64
  errno : Int32
  phases : List Phase
  totalNs : UInt64
  ino : UInt64
  pid : UInt32
  deriving DecidableEq, Repr

structure Exchange where
  side : Bytes
  ids : Ids
  every : UInt32
  request : Bytes
  requestElided : UInt64
  reply : Bytes
  replyElided : UInt64
  outcome : Bytes
  elapsedNs : UInt64
  deriving DecidableEq, Repr

/-- The union of a record; its groups are written out. -/
inductive Happened where
  | event (name : Bytes) (ids : Ids) (detail : Bytes)
  | request (request : Request)
  | dropped (count : UInt64)
  | exchange (exchange : Exchange)
  | undecodable (side : Bytes) (ids : Ids) (error : Bytes) (body : Bytes)
  | eventFrame (side : Bytes) (ids : Ids) (every : UInt32) (body : Bytes) (seq : UInt64)
  | header (protoRevision controlRevision : UInt64) (side : Bytes) (pid : UInt32) (describe : Bytes)
      (selection : Selection)
  | census (ops : List CensusOp) (dropped : UInt64)
  | notInSchema (discriminant : UInt16)
  deriving DecidableEq, Repr

structure Record where
  atNs : UInt64
  which : Happened
  deriving DecidableEq, Repr

inductive ControlReply where
  | counters (counters : Counters)
  | record (record : Record)
  | refused (why : Bytes)
  | handles (handles : Handles)
  | notInSchema (discriminant : UInt16)
  deriving DecidableEq, Repr

end JackalopeFs.ControlSchema

namespace JackalopeFs.ControlConversions

open ControlMessages WireConversions
open WireMessages (Bytes)

section Values

def present (values : List (Option UInt64)) : UInt8 :=
  (values.zipIdx.filter fun entry => entry.1.isSome).foldl
    (fun bits entry => bits ||| ((1 : UInt8) <<< UInt8.ofNat entry.2)) 0

def optional (present bit : UInt8) (value : UInt64) : Option UInt64 :=
  if present &&& ((1 : UInt8) <<< bit) ≠ 0 then some value else none

def ofText (text : String) : Bytes :=
  text.toUTF8.data.toList

/-- A text field as a string; bytes that are none are the same complaint as of a reason. -/
def text (bytes : Bytes) : Except ErrorDecode String :=
  match String.fromUTF8? ⟨bytes.toArray⟩ with
  | some text => .ok text
  | none => .error (.invalid .reason)

def buildNames : Names → ControlSchema.Names
  | .none => .none
  | .all => .all
  | .some list => .some (list.map ofText)

def parseNames : ControlSchema.Names → Except ErrorDecode Names
  | .none => .ok .none
  | .all => .ok .all
  | .some list => do return .some (← list.mapM text)
  | .notInSchema discriminant => .error (.notInSchema discriminant)

def buildSelection (selection : Selection) : ControlSchema.Selection :=
  ⟨buildNames selection.events, buildNames selection.ops, selection.frames, selection.every,
    selection.payloads⟩

def parseSelection (r : ControlSchema.Selection) : Except ErrorDecode Selection := do
  return ⟨← parseNames r.events, ← parseNames r.ops, r.frames, r.every, r.payloads⟩

def buildIds (ids : Ids) : ControlSchema.Ids :=
  ⟨present [ids.session, ids.conn, ids.stream, ids.unique], ids.session.getD 0, ids.conn.getD 0,
    ids.stream.getD 0, ids.unique.getD 0, ofText (ids.op.getD "")⟩

def parseIds (r : ControlSchema.Ids) : Except ErrorDecode Ids := do
  let op ← text r.op
  return ⟨optional r.present 0 r.session, optional r.present 1 r.conn, optional r.present 2 r.stream,
    optional r.present 3 r.unique, if op.isEmpty then none else some op⟩

def buildBuckets (buckets : List Bucket) : List ControlSchema.Bucket :=
  buckets.map fun b => ⟨b.upper, b.count⟩

def parseBuckets (list : List ControlSchema.Bucket) : List Bucket :=
  list.map fun b => ⟨b.upper, b.count⟩

end Values

section Requests

def buildAsk : Ask → ControlSchema.Ask
  | .counters => .counters
  | .subscribe selection => .subscribe (buildSelection selection)
  | .census => .census
  | .handles => .handles

def parseAsk : ControlSchema.Ask → Except ErrorDecode Ask
  | .counters => .ok .counters
  | .subscribe s => do return .subscribe (← parseSelection s)
  | .census => .ok .census
  | .handles => .ok .handles
  | .notInSchema discriminant => .error (.notInSchema discriminant)

instance : Message ControlRequest ControlSchema.ControlRequest where
  build request := ⟨request.revision, buildAsk request.ask⟩
  parse r _ := do
    let ask ← parseAsk r.which
    return ⟨r.revision, ask⟩
  sizeHint _ := 64

end Requests

section Records

def buildSummary (s : Summary) : ControlSchema.Request where
  level := ofText s.level
  ids := buildIds s.ids
  present := present [s.fh, s.offset, s.size, s.ino, s.pid.map UInt32.toUInt64]
  fh := s.fh.getD 0
  offset := s.offset.getD 0
  size := s.size.getD 0
  ino := s.ino.getD 0
  pid := s.pid.getD 0
  bytes := s.bytes
  items := s.items
  errno := s.errno
  phases := s.phases.map fun phase => ⟨ofText phase.1, phase.2⟩
  totalNs := s.totalNs

def parsePhase (p : ControlSchema.Phase) : Except ErrorDecode (String × UInt64) := do
  return (← text p.name, p.ns)

def parseSummary (q : ControlSchema.Request) : Except ErrorDecode Summary := do
  let level ← text q.level
  let ids ← parseIds q.ids
  let phases ← q.phases.mapM parsePhase
  return {
    level := level
    ids := ids
    fh := optional q.present 0 q.fh
    offset := optional q.present 1 q.offset
    size := optional q.present 2 q.size
    ino := optional q.present 3 q.ino
    pid := (optional q.present 4 q.pid.toUInt64).map UInt64.toUInt32
    bytes := q.bytes
    items := q.items
    errno := q.errno
    phases := phases
    totalNs := q.totalNs }

def buildExchange (x : Exchange) : ControlSchema.Exchange :=
  ⟨ofText x.side, buildIds x.ids, x.every, x.request, x.requestElided, x.reply, x.replyElided,
    ofText x.outcome, x.elapsedNs⟩

def parseExchange (e : ControlSchema.Exchange) : Except ErrorDecode Exchange := do
  return ⟨← text e.side, ← parseIds e.ids, e.every, e.request, e.requestElided, e.reply,
    e.replyElided, ← text e.outcome, e.elapsedNs⟩

def buildCensusOp (op : CensusOp) : ControlSchema.CensusOp :=
  ⟨ofText op.op, op.seen, op.sampled, op.dropped⟩

def parseCensusOp (o : ControlSchema.CensusOp) : Except ErrorDecode CensusOp := do
  return ⟨← text o.op, o.seen, o.sampled, o.dropped⟩

def buildHappened : Happened → ControlSchema.Happened
  | .event name ids detail => .event (ofText name) (buildIds ids) (ofText detail)
  | .request s => .request (buildSummary s)
  | .dropped n => .dropped n
  | .exchange x => .exchange (buildExchange x)
  | .undecodable side ids error body =>
    .undecodable (ofText side) (buildIds ids) (ofText error) body
  | .eventFrame side ids every seq body => .eventFrame (ofText side) (buildIds ids) every body seq
  | .header h =>
    .header h.protoRevision h.controlRevision (ofText h.side) h.pid (ofText h.describe)
      (buildSelection h.selection)
  | .census ops dropped => .census (ops.map buildCensusOp) dropped

def parseHappened : ControlSchema.Happened → Except ErrorDecode Happened
  | .event name ids detail => do return .event (← text name) (← parseIds ids) (← text detail)
  | .request q => do return .request (← parseSummary q)
  | .dropped n => .ok (.dropped n)
  | .exchange e => do return .exchange (← parseExchange e)
  | .undecodable side ids error body => do
      return .undecodable (← text side) (← parseIds ids) (← text error) body
  | .eventFrame side ids every body seq => do
      return .eventFrame (← text side) (← parseIds ids) every seq body
  | .header protoRevision controlRevision side pid describe selection => do
      return .header ⟨protoRevision, controlRevision, ← text side, pid, ← text describe,
        ← parseSelection selection⟩
  | .census ops dropped => do return .census (← ops.mapM parseCensusOp) dropped
  | .notInSchema discriminant => .error (.notInSchema discriminant)

def buildRecord (record : Record) : ControlSchema.Record :=
  ⟨record.atNs, buildHappened record.what⟩

def parseRecord (r : ControlSchema.Record) : Except ErrorDecode Record := do
  let what ← parseHappened r.which
  return ⟨r.atNs, what⟩

end Records

section Replies

def stateToWire : StateSession → UInt16
  | .attached => 0
  | .detached => 1
  | .dropped => 2

def stateFromWire (state : UInt16) : Except ErrorDecode StateSession :=
  if state = 0 then .ok .attached
  else if state = 1 then .ok .detached
  else if state = 2 then .ok .dropped
  else .error (.notInSchema state)

def buildProcess (row : HandlesProcess) : ControlSchema.HandlesProcess :=
  ⟨row.pid, ofText row.name, row.files, row.dirs, ofText row.within⟩

def parseProcess (r : ControlSchema.HandlesProcess) : Except ErrorDecode HandlesProcess := do
  return ⟨r.pid, ← text r.name, r.files, r.dirs, ← text r.within⟩

def buildSession (row : HandlesSession) : ControlSchema.HandlesSession :=
  ⟨row.session, ofText row.remote, stateToWire row.state, row.files, row.dirs⟩

def parseSession (r : ControlSchema.HandlesSession) : Except ErrorDecode HandlesSession := do
  return ⟨r.session, ← text r.remote, ← stateFromWire r.state, r.files, r.dirs⟩

def buildHandles : Handles → ControlSchema.Handles
  | .processes rows => .processes (rows.map buildProcess)
  | .sessions rows => .sessions (rows.map buildSession)

def parseHandles : ControlSchema.Handles → Except ErrorDecode Handles
  | .processes rows => do return .processes (← rows.mapM parseProcess)
  | .sessions rows => do return .sessions (← rows.mapM parseSession)
  | .notInSchema discriminant => .error (.notInSchema discriminant)

def buildTotalOp (t : TotalOp) : ControlSchema.TotalOp :=
  ⟨ofText t.level, ofText t.op, t.count, t.bytes, t.items, t.errors, t.totalNs, buildBuckets t.latency,
    buildBuckets t.sizes⟩

def parseTotalOp (o : ControlSchema.TotalOp) : Except ErrorDecode TotalOp := do
  return ⟨← text o.level, ← text o.op, o.count, o.bytes, o.items, o.errors, o.totalNs,
    parseBuckets o.latency, parseBuckets o.sizes⟩

def buildCount (event : String × UInt64) : ControlSchema.Count :=
  ⟨ofText event.1, event.2⟩

def parseCount (e : ControlSchema.Count) : Except ErrorDecode (String × UInt64) := do
  return (← text e.name, e.value)

def buildResources (r : Resources) : ControlSchema.Resources :=
  ⟨r.userNs, r.sysNs, r.voluntarySwitches, r.involuntarySwitches, r.workers, r.busyNs, r.parks⟩

def parseResources (r : ControlSchema.Resources) : Resources :=
  ⟨r.userNs, r.sysNs, r.voluntarySwitches, r.involuntarySwitches, r.workers, r.busyNs, r.parks⟩

def buildCounters (c : Counters) : ControlSchema.Counters :=
  ⟨ofText c.side, c.pid, ofText c.describe, c.uptimeNs, c.inflight, c.events.map buildCount,
    c.ops.map buildTotalOp, buildResources c.resources, ⟨c.handles.files, c.handles.dirs⟩⟩

def parseCounters (c : ControlSchema.Counters) : Except ErrorDecode Counters := do
  let side ← text c.side
  let describe ← text c.describe
  let events ← c.events.mapM parseCount
  let ops ← c.ops.mapM parseTotalOp
  return ⟨side, c.pid, describe, c.uptimeNs, c.inflight, events, ops, parseResources c.resources,
    ⟨c.handles.files, c.handles.dirs⟩⟩

def replyHint : ControlReply → ℕ
  | .counters c =>
    48 + 8 * (c.events.length +
      (c.ops.map fun t => 6 + 2 * (t.latency.length + t.sizes.length)).sum)
  | .record ⟨_, .event _ _ detail⟩ => 32 + detail.utf8ByteSize / 8
  | .record ⟨_, .exchange x⟩ => 48 + (x.request.length + x.reply.length) / 8
  | .record ⟨_, .undecodable _ _ _ body⟩ | .record ⟨_, .eventFrame _ _ _ _ body⟩ =>
    32 + body.length / 8
  | .handles (.processes rows) =>
    16 + (rows.map fun r => 8 + (r.name.utf8ByteSize + r.within.utf8ByteSize) / 8).sum
  | .handles (.sessions rows) => 16 + (rows.map fun r => 8 + r.remote.utf8ByteSize / 8).sum
  | _ => 64

instance : Message ControlReply ControlSchema.ControlReply where
  build
    | .counters c => .counters (buildCounters c)
    | .record record => .record (buildRecord record)
    | .refused why => .refused (ofText why)
    | .handles handles => .handles (buildHandles handles)
  parse r _ :=
    match r with
    | .counters c => do return .counters (← parseCounters c)
    | .record record => do return .record (← parseRecord record)
    | .refused why => do return .refused (← text why)
    | .handles h => do return .handles (← parseHandles h)
    | .notInSchema discriminant => .error (.notInSchema discriminant)
  sizeHint := replyHint

end Replies

end JackalopeFs.ControlConversions
