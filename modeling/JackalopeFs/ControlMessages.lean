import JackalopeFs.WireMessages

/-! # The messages of the control socket

What a process tells about itself over its local socket: counters, the handles open, and
the records a subscriber chose.  Texts are strings; the bodies of captured frames are bytes.
-/

namespace JackalopeFs.ControlMessages

open WireMessages (Bytes)

inductive Names where
  | none
  | all
  | some (names : List String)
  deriving DecidableEq, Repr

def Names.has : Names → String → Bool
  | .none, _ => false
  | .all, _ => true
  | .some names, name => names.any (· == name)

def Names.isNone : Names → Bool
  | .none => true
  | _ => false

/-- What a subscriber wants: events and operations by name, and with `frames` the frames themselves,
one in `every`. -/
structure Selection where
  events : Names
  ops : Names
  frames : Bool
  every : UInt32
  payloads : Bool
  deriving DecidableEq, Repr

inductive Ask where
  | counters
  | subscribe (selection : Selection)
  | census
  | handles
  deriving DecidableEq, Repr

structure ControlRequest where
  revision : UInt64
  ask : Ask
  deriving DecidableEq, Repr

/-- Values at most `upper`, above the bound of the bucket below. -/
structure Bucket where
  upper : UInt64
  count : UInt64
  deriving DecidableEq, Repr

/-- One operation's totals since the process started, at one level. -/
structure TotalOp where
  level : String
  op : String
  count : UInt64
  bytes : UInt64
  items : UInt64
  errors : UInt64
  totalNs : UInt64
  latency : List Bucket
  sizes : List Bucket
  deriving DecidableEq, Repr

structure Resources where
  userNs : UInt64
  sysNs : UInt64
  voluntarySwitches : UInt64
  involuntarySwitches : UInt64
  workers : UInt32
  busyNs : UInt64
  parks : UInt64
  deriving DecidableEq, Repr

structure HandlesTotals where
  files : UInt64
  dirs : UInt64
  deriving DecidableEq, Repr

structure Counters where
  side : String
  pid : UInt32
  describe : String
  uptimeNs : UInt64
  inflight : UInt64
  events : List (String × UInt64)
  ops : List TotalOp
  resources : Resources
  handles : HandlesTotals
  deriving DecidableEq, Repr

structure HandlesProcess where
  pid : UInt32
  name : String
  files : UInt64
  dirs : UInt64
  within : String
  deriving DecidableEq, Repr

inductive StateSession where
  | attached
  | detached
  | dropped
  deriving DecidableEq, Repr

def StateSession.asStr : StateSession → String
  | .attached => "attached"
  | .detached => "detached"
  | .dropped => "dropped"

structure HandlesSession where
  session : UInt64
  remote : String
  state : StateSession
  files : UInt64
  dirs : UInt64
  deriving DecidableEq, Repr

inductive Handles where
  | processes (rows : List HandlesProcess)
  | sessions (rows : List HandlesSession)
  deriving DecidableEq, Repr

/-- The identifiers that join a record to the log lines and to the other side's records. -/
structure Ids where
  session : Option UInt64
  conn : Option UInt64
  stream : Option UInt64
  unique : Option UInt64
  op : Option String
  deriving DecidableEq, Repr

structure Summary where
  level : String
  ids : Ids
  fh : Option UInt64
  offset : Option UInt64
  size : Option UInt64
  ino : Option UInt64
  pid : Option UInt32
  bytes : UInt64
  items : UInt64
  errno : Int32
  phases : List (String × UInt64)
  totalNs : UInt64
  deriving DecidableEq, Repr

/-- One request and its reply as they crossed the wire. -/
structure Exchange where
  side : String
  ids : Ids
  every : UInt32
  request : Bytes
  requestElided : UInt64
  reply : Bytes
  replyElided : UInt64
  outcome : String
  elapsedNs : UInt64
  deriving DecidableEq, Repr

/-- One operation in a capture: exchanges there were, those chosen and held, and those dropped. -/
structure CensusOp where
  op : String
  seen : UInt64
  sampled : UInt64
  dropped : UInt64
  deriving DecidableEq, Repr

structure Header where
  protoRevision : UInt64
  controlRevision : UInt64
  side : String
  pid : UInt32
  describe : String
  selection : Selection
  deriving DecidableEq, Repr

inductive Happened where
  | event (name : String) (ids : Ids) (detail : String)
  | request (summary : Summary)
  | dropped (count : UInt64)
  | exchange (exchange : Exchange)
  | undecodable (side : String) (ids : Ids) (error : String) (body : Bytes)
  | eventFrame (side : String) (ids : Ids) (every : UInt32) (seq : UInt64) (body : Bytes)
  | header (header : Header)
  | census (ops : List CensusOp) (dropped : UInt64)
  deriving DecidableEq, Repr

structure Record where
  atNs : UInt64
  what : Happened
  deriving DecidableEq, Repr

inductive ControlReply where
  | counters (counters : Counters)
  | record (record : Record)
  | refused (why : String)
  | handles (handles : Handles)
  deriving DecidableEq, Repr

end JackalopeFs.ControlMessages
