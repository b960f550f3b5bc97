import JackalopeFs.ClientTasks
import JackalopeFs.SessionAttendance
import JackalopeFs.SharedHandles

/-! # One client and the server, over QUIC

The client's machine, the server's session table and its handle tables joined into
one, with what lies between them.  A dial carries a hello that the server may take
up late or never.  An exchange is a stream: the server may accept it whenever the
connection's task takes streams, decodes its request only if the client wrote the
whole frame, and sees a reset only if the client gave up on it.  An answer reaches the
client only while the client has not seen the end of the connection, and may then be
read at any time.  An exchange's work at the server, from `begin` to the drop of its
guard, goes through the handle tables like `Ops::run`.

Other clients of the server do what they please with their own sessions: they resume
only sessions of theirs, since tokens are secret, and that is all that is assumed of
them.  Operations do not panic.
-/

namespace JackalopeFs.Protocol

open ClientHandles ClientMachine ClientTasks SessionAttendance SessionExchange SessionTable
open SharedHandles TransitionRuns WireRequests

/-- What a handle of the server holds: the file, and the exchange that opened it. -/
structure Opened where
  exchange : ℕ
  attr : Attr
  deriving DecidableEq, Repr

def openedOf : Handle Opened → Opened
  | .file opened => opened
  | .dir opened => opened

/-- How far the work of a begun request is: what `reserve` saw and got, and the response. -/
inductive Work where
  | idle
  | looked (seen : Option (Handle Opened))
  | held (handle : Handle Opened)
  | slot (slot : ℕ)
  | done (resp : Response)
  deriving DecidableEq, Repr

/-- What reached the client on a stream: a whole reply, or the stream's end without one. -/
inductive Arrival where
  | reply (resp : Response)
  | reset
  deriving DecidableEq, Repr

/-- The server's side of an exchange: its place among the session's requests, whether it was fenced,
its work, and what of its answer reached the client. -/
structure Served where
  task : Option ℕ
  fenced : Bool
  work : Work
  arrived : Option Arrival
  deriving DecidableEq, Repr

/-- One attempt to connect: the session its hello names, and the server's task for it. -/
structure Dial where
  resume : Option (ℕ × ℕ)
  conn : Option ℕ
  deriving DecidableEq, Repr

structure System where
  client : Client
  server : Server
  shared : Shared Opened
  served : ℕ → Served
  dials : List Dial
  current : Option ℕ

inductive Serving where
  | undecoded
  | decode
  | begin
  | abandon
  | drained
  | stopped
  | finish
  deriving DecidableEq, Repr

def Serving.on (i : ℕ) (ordered : Bool) : Serving → RequestAction
  | .undecoded => .undecoded i
  | .decode => .decode i ordered
  | .begin => .begin i
  | .abandon => .abandon i
  | .drained => .drained i
  | .stopped => .stopped i
  | .finish => .finish i

inductive Working where
  | look
  | reserve
  | heldAnswers
  | heldFails (errno : ℤ)
  | openFails (errno : ℤ)
  | opens (attr : Attr)
  | release
  | runs (resp : Response)
  deriving DecidableEq, Repr

inductive Action where
  | client (action : ClientTasks.Action)
  | dial
  | hangUp
  | hello (d : ℕ)
  | connected (rootChanged : Bool)
  | create (k token share : ℕ) (order : List ℕ)
  | server (action : SessionTable.Action)
  | accept (x : ℕ)
  | serve (x : ℕ) (serving : Serving)
  | work (x : ℕ) (working : Working)
  | deliver (x : ℕ) (whole : Bool)
  | foreign (action : SharedHandles.Action Opened)
  | close (id : ℕ)

namespace System

/-- Nothing has happened; the handle table numbered 0 is no session's. -/
def new (capacity : ℕ) : System where
  client := .new
  server := .new
  shared := ⟨⟨capacity, 0⟩, [some (.new 0)], []⟩
  served := fun _ => ⟨none, false, .idle, none⟩
  dials := []
  current := none

def sessionOf (s : System) (e : Sent) : ℕ :=
  (s.client.attached e.generation).session

/-- The server's task of the connection that an exchange goes on. -/
def connOf (s : System) (e : Sent) : ℕ :=
  (s.client.attached e.generation).conn

def taskOf (s : System) (x : ℕ) (e : Sent) : Option RequestTask :=
  (s.served x).task.bind fun i => (s.server.sessions.states (s.sessionOf e)).requests[i]?

/-- The phase of exchange `x` at the server, once its request was decoded. -/
def phaseOf (s : System) (x : ℕ) (e : Sent) : Option PhaseExchange :=
  (s.taskOf x e).bind fun task =>
    match task.stage with
    | .exchange y => some y.phase
    | _ => none

/-- The request has begun and its guard is not dropped yet. -/
def runs (s : System) (x : ℕ) (e : Sent) : Bool :=
  s.phaseOf x e = some .running || s.phaseOf x e = some .abandoned

def entry (s : System) (id fh : ℕ) : Option (Handle Opened) :=
  match s.shared.tables[id]? with
  | some (some handles) => handles.map.lookup fh
  | _ => none

def dialed (s : System) (k : ℕ) : Bool :=
  s.dials.any fun d => d.conn == some k

def ours (s : System) (id : ℕ) : Bool :=
  s.dials.any fun d => d.conn.any fun k =>
    (s.server.conns[k]?).any fun c => c.stage != .creating && c.session == id

def acknowledged (s : System) (id : ℕ) : Bool :=
  s.server.conns.any fun c => c.session == id && !c.resumed && acked c.stage

/-- What the network and the server let the client's tasks do. -/
def permits (s : System) : ClientTasks.Action → Bool
  | .connected .. => false
  | .cancelAnswered x =>
    (s.client.sent[x]?).all fun e =>
      (s.served x).arrived.isSome || !(s.client.attached e.generation).up
  | .ends x how =>
    (s.client.sent[x]?).all fun e =>
      match how with
      | .replied resp => (s.served x).arrived == some (.reply resp)
      | .protocol => e.stage == .writing || ((s.served x).arrived.any fun a => a != .reset)
      | .lost => (s.served x).arrived == some .reset || !(s.client.attached e.generation).up
      | .notSent => true
      | .gaveUp .. => true
  | _ => true

/-- What the server does of its own accord or for other clients. -/
def permitsServer (s : System) : SessionTable.Action → Bool
  | .hello (some (id, token)) =>
    (s.server.sessions.resume id token).isNone || (!s.ours id && s.acknowledged id)
  | .hello none => true
  | .create .. => false
  | .accept k => !s.dialed k
  | .request id _ => !s.ours id
  | .fail .. | .ack _ | .register _ | .attach _ | .unregister _ | .detach .. | .letGo _
  | .reap .. => true

/-- What other clients do to the handle tables: nothing to those of this client's sessions. -/
def permitsForeign (s : System) : SharedHandles.Action Opened → Bool
  | .newTable _ | .dropTable _ => false
  | .reserve table .. | .remove table _ => !s.ours table
  | .insert i _ | .dropSlot i =>
    (s.shared.slots[i]?).all fun slot => slot.all fun slot => !s.ours slot.handles

/-- What the server may do for exchange `x`: decode a request that was written whole, hear of a
give-up that was sent, drop the guard of one whose work is done. -/
def permitsServing (s : System) (x : ℕ) (e : Sent) : Serving → Bool
  | .decode => e.stage.written
  | .abandon =>
    match e.outcome with
    | some (.gaveUp _ true) => true
    | _ => false
  | .finish =>
    match (s.served x).work with
    | .done _ => true
    | _ => false
  | _ => true

def fences (s : System) (x : ℕ) (e : Sent) : Serving → Bool
  | .abandon => s.phaseOf x e = some .running
  | _ => false

def setServed (s : System) (x : ℕ) (served : Served) : System :=
  { s with served := Function.update s.served x served }

def setWork (s : System) (x : ℕ) (work : Work) : System :=
  s.setServed x { s.served x with work := work }

def handleFor (x : ℕ) (attr : Attr) : Request → Handle Opened
  | .opendir .. => .dir ⟨x, attr⟩
  | _ => .file ⟨x, attr⟩

def emfile : ℤ := 24

def ebadf : ℤ := 9

def work (s : System) (x : ℕ) (e : Sent) : Working → Option System
  | .look =>
    match e.req.opens, (s.served x).work with
    | some fh, .idle => some (s.setWork x (.looked (s.entry (s.sessionOf e) fh)))
    | _, _ => none
  | .reserve =>
    match e.req.opens, (s.served x).work with
    | some fh, .looked seen =>
      (SharedHandles.step s.shared (.reserve (s.sessionOf e) fh seen)).map fun shared =>
        { s with shared := shared }.setWork x
          (match Handles.reserve (s.sessionOf e) fh seen s.shared.pool with
            | .error _ => .done (.err emfile)
            | .ok (_, .held handle) => .held handle
            | .ok (_, .slot _) => .slot s.shared.slots.length)
    | _, _ => none
  | .heldAnswers =>
    match (s.served x).work with
    | .held handle => some (s.setWork x (.done (.opened (openedOf handle).attr)))
    | _ => none
  | .heldFails errno =>
    match (s.served x).work with
    | .held _ => some (s.setWork x (.done (.err errno)))
    | _ => none
  | .openFails errno =>
    match (s.served x).work with
    | .slot i =>
      (SharedHandles.step s.shared (.dropSlot i)).map fun shared =>
        { s with shared := shared }.setWork x (.done (.err errno))
    | _ => none
  | .opens attr =>
    match e.req.opens, (s.served x).work with
    | some fh, .slot i =>
      (SharedHandles.step s.shared (.insert i (handleFor x attr e.req))).map fun shared =>
        { s with shared := shared }.setWork x
          (.done (if (s.entry (s.sessionOf e) fh).isSome then .err ebadf else .opened attr))
    | _, _ => none
  | .release =>
    match e.req.releases, (s.served x).work with
    | some fh, .idle =>
      (SharedHandles.step s.shared (.remove (s.sessionOf e) fh)).map fun shared =>
        { s with shared := shared }.setWork x (.done .ok)
    | _, _ => none
  | .runs resp =>
    match e.req.opens, e.req.releases, (s.served x).work, resp with
    | _, _, _, .opened _ => none
    | none, none, .idle, resp => some (s.setWork x (.done resp))
    | _, _, _, _ => none

/-- What the server has to say about a request, `whole` if its reply goes through. -/
def answer (s : System) (x : ℕ) (whole : Bool) (task : RequestTask) : Option Arrival :=
  match task.stage with
  | .accepted => none
  | .undecoded => some .reset
  | .exchange y =>
    match y.phase with
    | .held | .ready | .running => none
    | .cancelled | .superseded | .dropped | .abandoned => some .reset
    | .finished =>
      match (s.served x).work with
      | .done resp => some (if whole && !(s.served x).fenced then .reply resp else .reset)
      | _ => none

end System

def step (s : System) : Action → Option System
  | .client action =>
    if s.permits action then
      (ClientTasks.step s.client action).map fun client => { s with client := client }
    else none
  | .dial =>
    match s.client.manager, s.current with
    | .connecting, none =>
      some { s with
        dials := s.dials ++ [⟨s.client.resume, none⟩], current := some s.dials.length }
    | _, _ => none
  | .hangUp => some { s with current := none }
  | .hello d =>
    match s.dials[d]? with
    | some ⟨resume, none⟩ =>
      (SessionTable.step s.server (.hello resume)).map fun server =>
        { s with
          server := server
          dials := s.dials.set d ⟨resume, some s.server.conns.length⟩ }
    | _ => none
  | .connected rootChanged =>
    match s.current.bind fun d => (s.dials[d]?).bind Dial.conn with
    | some k =>
      match s.server.conns[k]? with
      | some c =>
        if acked c.stage then
          (ClientTasks.step s.client (.connected k c.session
            (s.server.sessions.states c.session).resumeToken c.resumed rootChanged)).map
            fun client => { s with client := client, current := none }
        else none
      | none => none
    | none => none
  | .create k token share order =>
    (SessionTable.step s.server (.create k token order)).bind fun server =>
      (SharedHandles.step s.shared (.newTable share)).map fun shared =>
        { s with server := server, shared := shared }
  | .server action =>
    if s.permitsServer action then
      (SessionTable.step s.server action).map fun server => { s with server := server }
    else none
  | .accept x =>
    match s.client.sent[x]?, (s.served x).task with
    | some e, none =>
      (SessionTable.step s.server (.accept (s.connOf e))).map fun server =>
        { s with server := server }.setServed x { s.served x with
          task := some (s.server.sessions.states (s.sessionOf e)).requests.length }
    | _, _ => none
  | .serve x serving =>
    match s.client.sent[x]?, (s.served x).task with
    | some e, some i =>
      if s.permitsServing x e serving then
        (SessionTable.step s.server
          (.request (s.sessionOf e) (serving.on i e.req.changes))).map fun server =>
          { s with server := server }.setServed x { s.served x with
            fenced := (s.served x).fenced || s.fences x e serving }
      else none
    | _, _ => none
  | .work x working =>
    match s.client.sent[x]? with
    | some e => if s.runs x e then s.work x e working else none
    | none => none
  | .deliver x whole =>
    match s.client.sent[x]? with
    | some e =>
      if (s.client.attached e.generation).up && (s.served x).arrived.isNone then
        ((s.taskOf x e).bind (s.answer x whole)).map fun arrival =>
          s.setServed x { s.served x with arrived := some arrival }
      else none
    | none => none
  | .foreign action =>
    if s.permitsForeign action then
      (SharedHandles.step s.shared action).map fun shared => { s with shared := shared }
    else none
  | .close id =>
    if id ∉ s.server.sessions.map ∧ s.server.referred id = false then
      (SharedHandles.step s.shared (.dropTable id)).map fun shared => { s with shared := shared }
    else none

def machine (capacity : ℕ) : Machine System Action :=
  ⟨.new capacity, step⟩

end JackalopeFs.Protocol
