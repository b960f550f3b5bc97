import JackalopeFs.ClientMachine

/-! # The client's tasks: calls, exchanges, the connection manager and the release task

One machine in which every task of the client takes the steps of its source at any
time: calls (`Caller::attempt`, `open_handle`, `release`), exchanges, the background
readers of cancelled changes, the connection manager (`run`, `reopen_handles`) and
the release task (`send_releases`).  One action is what a task does without waiting.
Everything that the outside decides is in the actions: the kernel's requests and
interrupts, deadlines, replies, losses and what a handshake answered.  What the
network and the server can really do is added where this machine is joined to theirs.

The kernel is taken to release only handles that it holds.  Shutting down, panics of
a task and the limit on path lengths are left out.
-/

namespace JackalopeFs.ClientTasks

open ClientHandles ClientMachine IndexedCells Option TransitionRuns WireRequests

inductive Origin where
  | call (c : ℕ)
  | reopen (fh : ℕ)
  | owed (fh serial : ℕ)
  deriving DecidableEq, Repr

/-- Where an exchange is at the client: its frame is not written whole yet, or never was; its reply
is awaited; it was given up on and its answer is read in the background; or nothing of it is read
any more. -/
inductive SentStage where
  | writing
  | unwritten
  | awaiting
  | cancelling
  | closed
  deriving DecidableEq, Repr

namespace SentStage

def awaited : SentStage → Bool
  | .writing | .awaiting => true
  | .unwritten | .cancelling | .closed => false

def written : SentStage → Bool
  | .awaiting | .cancelling | .closed => true
  | .writing | .unwritten => false

end SentStage

inductive Exchanged where
  | replied (resp : Response)
  | notSent
  | lost
  | protocol
  | gaveUp (error : Error) (written : Bool)
  deriving DecidableEq, Repr

/-- The outcome as the result of a task that does not retry. -/
def Exchanged.result : Exchanged → Except Error Response
  | .replied resp => .ok resp
  | .notSent | .lost => .error .disconnected
  | .protocol => .error .protocol
  | .gaveUp error _ => .error error

/-- What an exchange can return, by who may give up on it: a call for either reason, a reopen when
its time is up, a release never. -/
def Origin.mayReturn : Origin → Exchanged → Bool
  | .call _, .gaveUp error _ => error = .timeout || error = .interrupted
  | .reopen _, .gaveUp error _ => error = .timeout
  | .owed .., .gaveUp .. => false
  | _, _ => true

/-- Where an exchange is once it returned; `counted` if a give-up on it is counted. -/
def SentStage.ends (stage : SentStage) (how : Exchanged) (counted : Bool) : Option SentStage :=
  match stage, how with
  | .writing, .notSent | .writing, .protocol | .writing, .gaveUp _ false => some .unwritten
  | .awaiting, .replied _ | .awaiting, .lost | .awaiting, .protocol => some .closed
  | .awaiting, .gaveUp _ true => some (if counted then .cancelling else .closed)
  | _, _ => none

/-- One exchange.  `joined` once the task it runs in was joined; `overBefore` remembers which
exchanges nobody waited for any more when this one was made. -/
structure Sent where
  origin : Origin
  req : Request
  generation : ℕ
  stage : SentStage
  outcome : Option Exchanged
  joined : Bool
  overBefore : List ℕ
  deriving DecidableEq, Repr

/-- What a call is made for: an open goes on to record its handle, a release to owe itself. -/
inductive Purpose where
  | plain
  | opening (fh : ℕ) (path : Path) (flags : BitVec 32) (kind : HandleKind)
  | releasing
  deriving DecidableEq, Repr

/-- One call.  `handles` are the records, when it started, of the handles it names; `checked` once
they were found alive; `taken` the generation it is about to be sent on; `settled` once its caller
did what the result asks for; `endedBefore` remembers which calls had ended when it started. -/
structure Call where
  req : Request
  purpose : Purpose
  handles : Option HandleRec × Option HandleRec
  state : CallState
  checked : Bool
  taken : Option ℕ
  result : Option (Except Error Response)
  settled : Bool
  endedBefore : List ℕ

/-- One connection, from its handshake on; `up` until the client sees its end. -/
structure Attached where
  conn : ℕ
  session : ℕ
  resumed : Bool
  state : AttachedState
  up : Bool
  deriving DecidableEq, Repr

/-- Where the connection manager is, from one handshake to the next. -/
inductive Manager where
  | connecting
  | greeted (resumed rootChanged : Bool)
  | rooted (resumed : Bool)
  | mooted
  | reopening (round : ReopenRound)
  | published

/-- The release task: the releases of its current pass still to send, during which it holds the
pending cancels' lock, and whether it is in its loop. -/
structure ReleaseTask where
  pass : List ℕ
  looping : Bool
  deriving DecidableEq, Repr

/-- The client.  `round` remembers the ids that the current session's reopen round was fixed with. -/
structure Client where
  handles : HandleTable
  calls : List Call
  sent : List Sent
  generation : ℕ
  attached : ℕ → Attached
  resume : Option (ℕ × ℕ)
  round : List ℕ
  manager : Manager
  releasing : Option ReleaseTask

namespace Client

def new : Client :=
  ⟨.new, [], [], 0, fun g => ⟨0, 0, false, .new g, false⟩, none, [], .connecting, none⟩

def overNow (c : Client) : List ℕ :=
  (List.range c.sent.length).filter fun x => (c.sent[x]?).all fun e => !e.stage.awaited

def endedNow (c : Client) : List ℕ :=
  (List.range c.calls.length).filter fun i => (c.calls[i]?).all fun call => call.result.isSome

/-- Change what is kept of the connection of generation `g`. -/
def onAttached (c : Client) (g : ℕ) (f : Attached → Attached) : Client :=
  { c with attached := Function.update c.attached g (f (c.attached g)) }

/-- Add `n` to the pending cancels of generation `g`, or take one off. -/
def setCancels (c : Client) (g n : ℕ) : Client :=
  c.onAttached g fun a => { a with state := { a.state with cancels := n } }

/-- The release task reads the pending cancels of generation `g`, so nobody changes them. -/
def cancelsLocked (c : Client) (g : ℕ) : Bool :=
  c.releasing.any fun task => !task.pass.isEmpty && g == c.generation

def send (c : Client) (origin : Origin) (req : Request) (g : ℕ) : Client :=
  { c with sent := c.sent ++ [⟨origin, req, g, .writing, none, false, c.overNow⟩] }

def start (c : Client) (req : Request) (purpose : Purpose) : Client :=
  let handles := (req.fhs.1.bind c.handles.get, req.fhs.2.bind c.handles.get)
  { c with
    calls := c.calls ++ [⟨req, purpose, handles, .new req.changes (retrySafe req handles), false,
      none, none, purpose == .plain, c.endedNow⟩] }

def startOpen (c : Client) (path : Path) (flags : BitVec 32) (kind : HandleKind)
    (build : ℕ → Request) : Client :=
  let (fh, handles) := c.handles.alloc
  { c with handles := handles }.start (build fh) (.opening fh path flags kind)

end Client

namespace Call

/-- One of the records that the call looked up is dead. -/
def stale (call : Call) (table : HandleTable) : Bool :=
  (call.handles.1.isSome && call.req.fhs.1.any table.isDead) ||
    (call.handles.2.isSome && call.req.fhs.2.any table.isDead)

def ends (call : Call) : Exchanged → Option Call
  | .replied (.err errno) =>
    some { call with state := call.state.answered true, result := some (.error (.remote errno)) }
  | .replied resp =>
    some { call with state := call.state.answered false, result := some (.ok resp) }
  | .notSent =>
    (call.state.lost .notSent).map fun r => { call with state := r.1, checked := false }
  | .lost =>
    (call.state.lost .lost).map fun r =>
      if r.2 then { call with state := r.1, checked := false }
      else { call with state := r.1, result := some (.error .disconnected) }
  | .protocol => some { call with state := call.state.failed, result := some (.error .protocol) }
  | .gaveUp error written =>
    some { call with state := (call.state.gaveUp written).1, result := some (.error error) }

end Call

inductive Action where
  | call (req : Request)
  | open (path : Path) (flags : BitVec 32)
  | create (parent : Path) (name : Name) (flags : BitVec 32)
  | opendir (path : Path)
  | release (fh : ℕ) (dir : Bool)
  | check (i : ℕ)
  | take (i : ℕ)
  | unmapped (i : ℕ)
  | waitFails (i : ℕ) (error : Error)
  | ready (i : ℕ)
  | write (x : ℕ)
  | ends (x : ℕ) (how : Exchanged)
  | cancelAnswered (x : ℕ)
  | settle (i : ℕ) (accepted : Bool)
  | connected (conn session token : ℕ) (resumed rootChanged : Bool)
  | root
  | moot
  | fixRound
  | reopenSend (fh : ℕ)
  | reopenEnded (x : ℕ)
  | publish
  | down
  | pass
  | owedSend
  | owedJoin (x : ℕ)
  | leave
  | releasesEnd
  | reconnect
  deriving DecidableEq, Repr

namespace Client

/-- Go on with call `i` if it still waits for a connection. -/
def onWaiting (c : Client) (i : ℕ) (f : Call → Option Call) : Option Client :=
  match c.calls[i]? with
  | some call =>
    if call.state.status = .waiting then
      (f call).map fun call' => { c with calls := c.calls.set i call' }
    else none
  | none => none

/-- The end of exchange `x`, `counted` if a give-up on it is counted. -/
def endExchange (c : Client) (x : ℕ) (e : Sent) (how : Exchanged) (counted : Bool) :
    Option Client :=
  (e.stage.ends how counted).bind fun stage =>
    let ended := { c with sent := c.sent.set x { e with stage := stage, outcome := some how } }
    if stage = .cancelling then
      if c.cancelsLocked e.generation then none
      else some (ended.setCancels e.generation ((c.attached e.generation).state.cancels + 1))
    else some ended

/-- What `open_handle` and `release` do with the result of their call; `accepted` is whether the
caller takes the file that an open found. -/
def settle (handles : HandleTable) (call : Call) (result : Except Error Response)
    (accepted : Bool) : Option HandleTable :=
  match call.purpose with
  | .plain => none
  | .opening fh path flags kind =>
    match openSettled result, result with
    | .keep, .ok (.opened attr) =>
      if accepted then some (handles.insert fh ⟨.of attr, path, flags, kind⟩)
      else handles.oweRelease (releaseRequest kind fh)
    | .owe, _ => handles.oweRelease (releaseRequest kind fh)
    | .nothing, .error _ => some handles
    | _, _ => none
  | .releasing => if releaseOwed result then handles.oweRelease call.req else some handles

/-- Every release sent on the current connection was joined. -/
def releasesJoined (c : Client) : Bool :=
  c.sent.all fun e =>
    match e.origin with
    | .owed .. => e.joined || e.generation != c.generation
    | _ => true

end Client

def step (c : Client) : Action → Option Client
  | .call req =>
    if req.opens = none ∧ req.releases = none then some (c.start req .plain) else none
  | .open path flags => some (c.startOpen path flags .file fun fh => .open fh path flags)
  | .create parent name flags =>
    some (c.startOpen (parent ++ [name]) flags .file fun fh => .create fh parent name flags)
  | .opendir path => some (c.startOpen path oDirectory .dir fun fh => .opendir fh path)
  | .release fh dir =>
    if (c.handles.get fh).isSome then
      let (handles, tell) := releaseBegins c.handles fh
      let released := { c with handles := handles }
      if tell then
        some (released.start (if dir then .releasedir fh false else .release fh false) .releasing)
      else some released
    else none
  | .check i =>
    c.onWaiting i fun call =>
      if call.checked then none
      else if call.stale c.handles then
        some { call with state := call.state.failed, result := some (.error .stale) }
      else some { call with checked := true }
  | .take i =>
    match c.manager with
    | .published =>
      c.onWaiting i fun call =>
        if call.checked && call.taken.isNone && call.state.takes (c.attached c.generation).state
        then some { call with taken := some c.generation } else none
    | _ => none
  | .unmapped i =>
    c.onWaiting i fun call =>
      if call.taken.isSome && call.req.namesOwners then
        some { call with state := call.state.failed, result := some (.error .unmapped) }
      else none
  | .waitFails i error =>
    c.onWaiting i fun call =>
      if call.checked && (error = .timeout || error = .interrupted) then
        some { call with state := (call.state.gaveUp false).1, result := some (.error error) }
      else none
  | .ready i =>
    match c.calls[i]? with
    | some call =>
      match call.taken with
      | some g =>
        if call.state.sendable (c.attached g).state (c.attached g).state.cancels = .now then
          some { c.send (.call i) call.req g with
            calls := c.calls.set i { call with state := call.state.sent g, taken := none } }
        else none
      | none => none
    | none => none
  | .write x =>
    match c.sent[x]? with
    | some e =>
      if e.stage = .writing ∧ (c.attached e.generation).up then
        some { c with sent := c.sent.set x { e with stage := .awaiting } }
      else none
    | none => none
  | .ends x how =>
    match c.sent[x]? with
    | none => none
    | some e =>
      if e.origin.mayReturn how then
        match e.origin with
        | .call i =>
          match c.calls[i]? with
          | some call =>
            (c.endExchange x e how (call.state.gaveUp true).2).bind fun ended =>
              (call.ends how).map fun call' => { ended with calls := c.calls.set i call' }
          | none => none
        | .reopen _ => c.endExchange x e how (countsGiveUp true true true)
        | .owed .. => c.endExchange x e how false
      else none
  | .cancelAnswered x =>
    match c.sent[x]? with
    | some e =>
      if e.stage = .cancelling ∧ c.cancelsLocked e.generation = false ∧
          (c.attached e.generation).state.cancels ≠ 0 then
        some ({ c with sent := c.sent.set x { e with stage := .closed } }.setCancels e.generation
          ((c.attached e.generation).state.cancels - 1))
      else none
    | none => none
  | .settle i accepted =>
    match c.calls[i]? with
    | some call =>
      match call.result with
      | some result =>
        if call.settled then none
        else (Client.settle c.handles call result accepted).map fun handles =>
          { c with handles := handles, calls := c.calls.set i { call with settled := true } }
      | none => none
    | none => none
  | .connected conn session token resumed rootChanged =>
    match c.manager with
    | .connecting =>
      let g := c.generation + 1
      some { c with
        generation := g
        attached := Function.update c.attached g ⟨conn, session, resumed, .new g, true⟩
        resume := some (session, token)
        manager := .greeted resumed rootChanged }
    | _ => none
  | .root =>
    match c.manager with
    | .greeted resumed rootChanged =>
      some { c with
        handles := if rootChanged then c.handles.killAll else c.handles
        manager := .rooted resumed }
    | _ => none
  | .moot =>
    match c.manager with
    | .rooted false => some { c with handles := c.handles.owedMoot, manager := .mooted }
    | _ => none
  | .fixRound =>
    match c.manager with
    | .mooted =>
      some { c with
        round := c.handles.live.keys
        manager := .reopening (.new c.handles) }
    | _ => none
  | .reopenSend fh =>
    match c.manager with
    | .reopening round =>
      (round.send fh).map fun r =>
        { c.send (.reopen fh) r.2 c.generation with manager := .reopening r.1 }
    | _ => none
  | .reopenEnded x =>
    match c.manager, c.sent[x]? with
    | .reopening round, some e =>
      match e.origin, e.outcome with
      | .reopen fh, some how =>
        if e.generation = c.generation ∧ e.joined = false then
          (round.ended c.handles fh how.result).map fun r =>
            { c with
              sent := c.sent.set x { e with joined := true }
              handles := r.2
              manager := .reopening r.1 }
        else none
      | _, _ => none
    | _, _ => none
  | .publish =>
    let publish := { c.onAttached c.generation (fun a =>
        { a with state := { a.state with published := true } }) with
      manager := .published, releasing := some ⟨[], true⟩ }
    match c.manager with
    | .rooted true => some publish
    | .reopening round => if round.publishable then some publish else none
    | _ => none
  | .down =>
    if (c.attached c.generation).up then
      some (c.onAttached c.generation fun a => { a with up := false })
    else none
  | .pass =>
    match c.releasing with
    | some ⟨[], true⟩ =>
      let a := (c.attached c.generation).state
      some { c with releasing := some ⟨owedSendable c.handles a a.cancels, true⟩ }
    | _ => none
  | .owedSend =>
    match c.releasing with
    | some ⟨fh :: rest, looping⟩ =>
      (c.handles.owedSend fh c.generation).map fun r =>
        { c.send (.owed fh r.2.serial) r.2.req c.generation with
          handles := r.1, releasing := some ⟨rest, looping⟩ }
    | _ => none
  | .owedJoin x =>
    match c.releasing, c.sent[x]? with
    | some ⟨[], _⟩, some e =>
      match e.origin, e.outcome with
      | .owed fh _, some how =>
        if e.generation = c.generation ∧ e.joined = false then
          some { c with
            sent := c.sent.set x { e with joined := true }
            handles :=
              match how with
              | .replied _ => c.handles.owedDelivered fh c.generation
              | _ => c.handles }
        else none
      | _, _ => none
    | _, _ => none
  | .leave =>
    match c.releasing with
    | some ⟨[], true⟩ =>
      if (c.attached c.generation).up then none
      else some { c with releasing := some ⟨[], false⟩ }
    | _ => none
  | .releasesEnd =>
    match c.releasing with
    | some ⟨[], false⟩ =>
      if c.releasesJoined then
        some { c with
          handles := c.handles.owedConnectionEnded c.generation
          releasing := none }
      else none
    | _ => none
  | .reconnect =>
    match c.manager, c.releasing with
    | .published, none =>
      if (c.attached c.generation).up then none else some { c with manager := .connecting }
    | _, _ => none

def machine : Machine Client Action :=
  ⟨.new, step⟩

section Steps

inductive Waits (c : Client) (call : Call) : Call → Prop where
  | checks (unchecked : call.checked = false)
      (alive : call.stale c.handles = false) :
      Waits c call { call with checked := true }
  | takes (published : c.manager = .published) (checked : call.checked = true)
      (free : call.taken = none) (takes : call.state.takes (c.attached c.generation).state = true) :
      Waits c call { call with taken := some c.generation }
  | fails (how : EndCall) (error : Error)
      (cause : (error = .stale ∧ call.stale c.handles = true) ∨
        (error = .unmapped ∧ call.req.namesOwners = true) ∨ error = .timeout ∨
        error = .interrupted) :
      Waits c call { call with
        state := { call.state with status := .ended how }, result := some (.error error) }

/-- What the end of an exchange makes of the calls, and whether a give-up on it is counted. -/
inductive Returns (c : Client) (e : Sent) (how : Exchanged) : Bool → List Call → Prop where
  | call (i : ℕ) (call call' : Call) (origin : e.origin = .call i)
      (found : c.calls[i]? = some call) (ends : call.ends how = some call') :
      Returns c e how (call.state.gaveUp true).2 (c.calls.set i call')
  | reopen (fh : ℕ) (origin : e.origin = .reopen fh) : Returns c e how true c.calls
  | owed (fh serial : ℕ) (origin : e.origin = .owed fh serial) : Returns c e how false c.calls

/-- What settling a call's result makes of the handle table. -/
inductive Settles (handles : HandleTable) (call : Call) (result : Except Error Response)
    (accepted : Bool) : HandleTable → Prop where
  | keeps (fh : ℕ) (path : Path) (flags : BitVec 32) (kind : HandleKind) (attr : Attr)
      (purpose : call.purpose = .opening fh path flags kind) (opened : result = .ok (.opened attr))
      (takes : accepted = true) :
      Settles handles call result accepted (handles.insert fh ⟨.of attr, path, flags, kind⟩)
  | owesOpened (fh : ℕ) (path : Path) (flags : BitVec 32) (kind : HandleKind)
      (purpose : call.purpose = .opening fh path flags kind)
      (doubt : openSettled result = .owe ∨ openSettled result = .keep) :
      Settles handles call result accepted (handles.owe fh (releaseRequest kind fh))
  | refused (fh : ℕ) (path : Path) (flags : BitVec 32) (kind : HandleKind)
      (purpose : call.purpose = .opening fh path flags kind)
      (settled : openSettled result = .nothing) : Settles handles call result accepted handles
  | owesRelease (fh : ℕ) (release : Request) (purpose : call.purpose = .releasing)
      (owed : releaseOwed result = true)
      (names : HandleTable.asOwed call.req = some (fh, release)) :
      Settles handles call result accepted (handles.owe fh release)
  | released (purpose : call.purpose = .releasing) (unowed : releaseOwed result = false) :
      Settles handles call result accepted handles

theorem settle_settles {handles handles' : HandleTable} {call : Call}
    {result : Except Error Response} {accepted : Bool}
    (h : Client.settle handles call result accepted = some handles') :
    Settles handles call result accepted handles' := by
  unfold Client.settle at h
  split at h
  · cases h
  · rename_i fh path flags kind purpose
    split at h
    · rename_i attr settled
      split_ifs at h with taken
      · cases h
        exact .keeps fh path flags kind attr purpose rfl taken
      · rw [HandleTable.oweRelease_releaseRequest] at h
        cases h
        exact .owesOpened fh path flags kind purpose (.inr settled)
    · rename_i settled
      rw [HandleTable.oweRelease_releaseRequest] at h
      cases h
      exact .owesOpened fh path flags kind purpose (.inl settled)
    · rename_i settled
      cases h
      exact .refused fh path flags kind purpose settled
    · cases h
  · rename_i purpose
    split_ifs at h with owed
    · obtain ⟨r, names, rfl⟩ := map_eq_some_iff.mp h
      exact .owesRelease r.1 r.2 purpose owed names
    · cases h
      exact .released purpose (by simpa using owed)

/-- Everything that an action can do to the client.  The action is named where it matters to what the
outside lets the client do. -/
inductive Steps (c : Client) (action : Action) : Client → Prop where
  | startsCall (req : Request) (unopened : req.opens = none) (unreleased : req.releases = none) :
      Steps c action (c.start req .plain)
  | startsOpen (path : Path) (flags : BitVec 32) (kind : HandleKind) (build : ℕ → Request)
      (opens : ∀ fh, (build fh).opens = some fh) : Steps c action (c.startOpen path flags kind build)
  | startsRelease (fh : ℕ) (req : Request) (rec : HandleRec) (found : c.handles.get fh = some rec)
      (alive : c.handles.isDead fh = false) (names : req.releases = some fh)
      (unordered : req.changes = false) :
      Steps c action ({ c with handles := (c.handles.remove fh).1 }.start req .releasing)
  | forgets (fh : ℕ) (rec : HandleRec) (found : c.handles.get fh = some rec)
      (dead : c.handles.isDead fh = true) : Steps c action { c with handles := (c.handles.remove fh).1 }
  | waits (i : ℕ) (call call' : Call) (found : c.calls[i]? = some call)
      (waiting : call.state.status = .waiting) (waits : Waits c call call') :
      Steps c action { c with calls := c.calls.set i call' }
  | sends (i : ℕ) (call : Call) (g : ℕ) (found : c.calls[i]? = some call)
      (taken : call.taken = some g) (takes : call.state.takes (c.attached g).state = true)
      (clear : call.state.changes = true → (c.attached g).state.cancels = 0) :
      Steps c action { c.send (.call i) call.req g with
        calls := c.calls.set i { call with state := call.state.sent g, taken := none } }
  | writes (x : ℕ) (e : Sent) (found : c.sent[x]? = some e) (writing : e.stage = .writing)
      (up : (c.attached e.generation).up = true) :
      Steps c action { c with sent := c.sent.set x { e with stage := .awaiting } }
  | returns (x : ℕ) (e : Sent) (how : Exchanged) (counted : Bool) (stage : SentStage)
      (calls : List Call) (named : action = .ends x how) (found : c.sent[x]? = some e) (may : e.origin.mayReturn how = true)
      (returns : Returns c e how counted calls) (ends : e.stage.ends how counted = some stage)
      (unlocked : stage = .cancelling → c.cancelsLocked e.generation = false) :
      Steps c action { c with
        sent := c.sent.set x { e with stage := stage, outcome := some how }
        calls := calls
        attached :=
          if stage = .cancelling then
            (c.setCancels e.generation ((c.attached e.generation).state.cancels + 1)).attached
          else c.attached }
  | cancelAnswered (x : ℕ) (e : Sent) (named : action = .cancelAnswered x)
      (found : c.sent[x]? = some e) (cancelling : e.stage = .cancelling) (unlocked : c.cancelsLocked e.generation = false)
      (counted : (c.attached e.generation).state.cancels ≠ 0) :
      Steps c action ({ c with sent := c.sent.set x { e with stage := .closed } }.setCancels e.generation
        ((c.attached e.generation).state.cancels - 1))
  | settles (i : ℕ) (call : Call) (result : Except Error Response) (handles : HandleTable)
      (found : c.calls[i]? = some call) (ended : call.result = some result)
      (unsettled : call.settled = false) (accepted : Bool) (named : action = .settle i accepted)
      (settles : Settles c.handles call result accepted handles) :
      Steps c action { c with
        handles := handles, calls := c.calls.set i { call with settled := true } }
  | connects (conn session token : ℕ) (resumed rootChanged : Bool)
      (named : action = .connected conn session token resumed rootChanged)
      (connecting : c.manager = .connecting) :
      Steps c action { c with
        generation := c.generation + 1
        attached := Function.update c.attached (c.generation + 1)
          ⟨conn, session, resumed, .new (c.generation + 1), true⟩
        resume := some (session, token)
        manager := .greeted resumed rootChanged }
  | roots (resumed rootChanged : Bool) (greeted : c.manager = .greeted resumed rootChanged) :
      Steps c action { c with
        handles := if rootChanged then c.handles.killAll else c.handles
        manager := .rooted resumed }
  | moots (rooted : c.manager = .rooted false) :
      Steps c action { c with handles := c.handles.owedMoot, manager := .mooted }
  | fixes (named : action = .fixRound) (mooted : c.manager = .mooted) :
      Steps c action { c with round := c.handles.live.keys, manager := .reopening (.new c.handles) }
  | sendsReopen (fh : ℕ) (round round' : ReopenRound) (req : Request)
      (reopening : c.manager = .reopening round) (sent : round.send fh = some (round', req)) :
      Steps c action { c.send (.reopen fh) req c.generation with manager := .reopening round' }
  | endsReopen (x : ℕ) (e : Sent) (fh : ℕ) (how : Exchanged) (round round' : ReopenRound)
      (handles : HandleTable) (reopening : c.manager = .reopening round)
      (found : c.sent[x]? = some e) (origin : e.origin = .reopen fh)
      (outcome : e.outcome = some how) (current : e.generation = c.generation)
      (unjoined : e.joined = false)
      (ended : round.ended c.handles fh how.result = some (round', handles)) :
      Steps c action { c with
        sent := c.sent.set x { e with joined := true }
        handles := handles
        manager := .reopening round' }
  | publishes (ready : c.manager = .rooted true ∨
        ∃ round, c.manager = .reopening round ∧ round.publishable = true) :
      Steps c action { c.onAttached c.generation (fun a =>
          { a with state := { a.state with published := true } }) with
        manager := .published, releasing := some ⟨[], true⟩ }
  | goesDown (up : (c.attached c.generation).up = true) :
      Steps c action (c.onAttached c.generation fun a => { a with up := false })
  | passes (looping : c.releasing = some ⟨[], true⟩) :
      Steps c action { c with releasing := some ⟨owedSendable c.handles (c.attached c.generation).state
        (c.attached c.generation).state.cancels, true⟩ }
  | sendsOwed (fh : ℕ) (rest : List ℕ) (looping : Bool) (handles : HandleTable)
      (owed : OwedRelease) (releasing : c.releasing = some ⟨fh :: rest, looping⟩)
      (sent : c.handles.owedSend fh c.generation = some (handles, owed)) :
      Steps c action { c.send (.owed fh owed.serial) owed.req c.generation with
        handles := handles, releasing := some ⟨rest, looping⟩ }
  | joinsOwed (x : ℕ) (e : Sent) (fh serial : ℕ) (how : Exchanged) (looping : Bool)
      (handles : HandleTable) (releasing : c.releasing = some ⟨[], looping⟩)
      (found : c.sent[x]? = some e) (origin : e.origin = .owed fh serial)
      (outcome : e.outcome = some how) (current : e.generation = c.generation)
      (unjoined : e.joined = false)
      (settled : (∃ resp, how = .replied resp) ∧
          handles = c.handles.owedDelivered fh c.generation ∨ handles = c.handles) :
      Steps c action { c with sent := c.sent.set x { e with joined := true }, handles := handles }
  | leaves (looping : c.releasing = some ⟨[], true⟩) (lost : (c.attached c.generation).up = false) :
      Steps c action { c with releasing := some ⟨[], false⟩ }
  | releasesEnd (left : c.releasing = some ⟨[], false⟩) (joined : c.releasesJoined = true) :
      Steps c action { c with
        handles := c.handles.owedConnectionEnded c.generation, releasing := none }
  | reconnects (published : c.manager = .published) (released : c.releasing = none)
      (lost : (c.attached c.generation).up = false) : Steps c action { c with manager := .connecting }

variable {c c' : Client}

theorem of_onWaiting {i : ℕ} {f : Call → Option Call} (h : c.onWaiting i f = some c') :
    ∃ call call', c.calls[i]? = some call ∧ call.state.status = .waiting ∧ f call = some call' ∧
      c' = { c with calls := c.calls.set i call' } := by
  unfold Client.onWaiting at h
  split at h
  · rename_i call found
    split_ifs at h with waiting
    obtain ⟨call', made, rfl⟩ := map_eq_some_iff.mp h
    exact ⟨call, call', found, waiting, made, rfl⟩
  · cases h

theorem takes_of_sendable {call : CallState} {attached : AttachedState} {pending : ℕ}
    (h : call.sendable attached pending = .now) :
    call.takes attached = true ∧ (call.changes = true → pending = 0) := by
  unfold CallState.sendable at h
  split_ifs at h with refused waits
  refine ⟨by simpa using refused, fun changes => ?_⟩
  by_contra nonzero
  exact waits ⟨changes, nonzero⟩

theorem of_endExchange {x : ℕ} {e : Sent} {how : Exchanged} {counted : Bool}
    (h : c.endExchange x e how counted = some c') :
    ∃ stage, e.stage.ends how counted = some stage ∧
      (stage = .cancelling → c.cancelsLocked e.generation = false) ∧
      c' = { c with
        sent := c.sent.set x { e with stage := stage, outcome := some how }
        attached :=
          if stage = .cancelling then
            (c.setCancels e.generation ((c.attached e.generation).state.cancels + 1)).attached
          else c.attached } := by
  obtain ⟨stage, ends, made⟩ := bind_eq_some_iff.mp h
  refine ⟨stage, ends, ?_⟩
  split_ifs at made with cancelling locked
  · cases made
    exact ⟨fun _ => by simpa using locked, by simp [cancelling, Client.setCancels, Client.onAttached]⟩
  · cases made
    exact ⟨fun eq => absurd eq cancelling, by simp [cancelling]⟩

theorem releaseBegins_tells {handles : HandleTable} {fh : ℕ} {rec : HandleRec}
    (found : handles.get fh = some rec) :
    (releaseBegins handles fh).2 = true ↔ handles.isDead fh = false := by
  rw [HandleTable.get] at found
  simp [releaseBegins, HandleTable.remove, found]

variable {action : Action}

theorem step_steps (h : step c action = some c') : Steps c action c' := by
  cases action with
  | call req =>
    simp only [step] at h
    split_ifs at h with plain
    cases h
    exact .startsCall req plain.1 plain.2
  | «open» path flags =>
    cases h
    exact .startsOpen _ _ _ _ fun _ => rfl
  | create =>
    cases h
    exact .startsOpen _ _ _ _ fun _ => rfl
  | opendir =>
    cases h
    exact .startsOpen _ _ _ _ fun _ => rfl
  | release fh =>
    simp only [step] at h
    split_ifs at h with held tell directory
    · obtain ⟨rec, found⟩ := isSome_iff_exists.mp held
      cases h
      exact .startsRelease fh _ rec found ((releaseBegins_tells found).mp tell) rfl rfl
    · obtain ⟨rec, found⟩ := isSome_iff_exists.mp held
      cases h
      exact .startsRelease fh _ rec found ((releaseBegins_tells found).mp tell) rfl rfl
    · obtain ⟨rec, found⟩ := isSome_iff_exists.mp held
      cases h
      refine .forgets fh rec found ?_
      by_contra alive
      exact tell ((releaseBegins_tells found).mpr (by simpa using alive))
  | check i =>
    obtain ⟨call, call', found, waiting, made, rfl⟩ := of_onWaiting h
    refine .waits i call call' found waiting ?_
    split_ifs at made with checked dead
    · cases made
      exact .fails .failed .stale (.inl ⟨rfl, dead⟩)
    · cases made
      exact .checks (by simpa using checked) (by simpa using dead)
  | take i =>
    simp only [step] at h
    split at h
    · rename_i published
      obtain ⟨call, call', found, waiting, made, rfl⟩ := of_onWaiting h
      refine .waits i call call' found waiting ?_
      split_ifs at made with takes
      cases made
      simp only [Bool.and_eq_true, isNone_iff_eq_none] at takes
      exact .takes published takes.1.1 takes.1.2 takes.2
    · cases h
  | unmapped i =>
    obtain ⟨call, call', found, waiting, made, rfl⟩ := of_onWaiting h
    refine .waits i call call' found waiting ?_
    split_ifs at made with owners
    cases made
    simp only [Bool.and_eq_true] at owners
    exact .fails .failed .unmapped (.inr (.inl ⟨rfl, owners.2⟩))
  | waitFails i error =>
    obtain ⟨call, call', found, waiting, made, rfl⟩ := of_onWaiting h
    refine .waits i call call' found waiting ?_
    split_ifs at made with gaveUp
    cases made
    simp only [Bool.and_eq_true, Bool.or_eq_true, decide_eq_true_eq] at gaveUp
    exact .fails .gaveUp error (.inr (.inr gaveUp.2))
  | ready i =>
    simp only [step] at h
    split at h
    · rename_i call found
      split at h
      · rename_i g taken
        split_ifs at h with now
        cases h
        obtain ⟨takes, clear⟩ := takes_of_sendable now
        exact .sends i call g found taken takes clear
      · cases h
    · cases h
  | write x =>
    simp only [step] at h
    split at h
    · rename_i e found
      split_ifs at h with ready
      cases h
      exact .writes x e found ready.1 ready.2
    · cases h
  | ends x how =>
    simp only [step] at h
    split at h
    · cases h
    · rename_i e found
      split_ifs at h with may
      split at h
      · rename_i i origin
        split at h
        · rename_i call known
          obtain ⟨m, made, h⟩ := bind_eq_some_iff.mp h
          obtain ⟨call', ends, rfl⟩ := map_eq_some_iff.mp h
          obtain ⟨stage, moved, unlocked, rfl⟩ := of_endExchange made
          exact .returns x e how _ stage _ rfl found may (.call i call call' origin known ends) moved
            unlocked
        · cases h
      · rename_i fh origin
        obtain ⟨stage, moved, unlocked, rfl⟩ := of_endExchange h
        exact .returns x e how true stage c.calls rfl found may (.reopen fh origin) moved unlocked
      · rename_i fh serial origin
        obtain ⟨stage, moved, unlocked, rfl⟩ := of_endExchange h
        exact .returns x e how false stage c.calls rfl found may (.owed fh serial origin) moved unlocked
  | cancelAnswered x =>
    simp only [step] at h
    split at h
    · rename_i e found
      split_ifs at h with answered
      cases h
      exact .cancelAnswered x e rfl found answered.1 answered.2.1 answered.2.2
    · cases h
  | settle i accepted =>
    simp only [step] at h
    split at h
    · rename_i call found
      split at h
      · rename_i result ended
        split_ifs at h with settled
        obtain ⟨handles, made, rfl⟩ := map_eq_some_iff.mp h
        exact .settles i call result handles found ended (by simpa using settled) accepted rfl
          (settle_settles made)
      · cases h
    · cases h
  | connected conn session token resumed rootChanged =>
    simp only [step] at h
    split at h
    · rename_i connecting
      cases h
      exact .connects conn session token resumed rootChanged rfl connecting
    · cases h
  | root =>
    simp only [step] at h
    split at h
    · rename_i resumed rootChanged greeted
      cases h
      exact .roots resumed rootChanged greeted
    · cases h
  | moot =>
    simp only [step] at h
    split at h
    · rename_i rooted
      cases h
      exact .moots rooted
    · cases h
  | fixRound =>
    simp only [step] at h
    split at h
    · rename_i mooted
      cases h
      exact .fixes rfl mooted
    · cases h
  | reopenSend fh =>
    simp only [step] at h
    split at h
    · rename_i round reopening
      obtain ⟨r, sent, rfl⟩ := map_eq_some_iff.mp h
      exact .sendsReopen fh round r.1 r.2 reopening sent
    · cases h
  | reopenEnded x =>
    simp only [step] at h
    split at h
    · rename_i round e reopening found
      split at h
      · rename_i fh how origin outcome
        split_ifs at h with unjoined
        obtain ⟨r, ended, rfl⟩ := map_eq_some_iff.mp h
        exact .endsReopen x e fh how round r.1 r.2 reopening found origin outcome unjoined.1
          unjoined.2 ended
      · cases h
    · cases h
  | publish =>
    simp only [step] at h
    split at h
    · rename_i rooted
      cases h
      exact .publishes (.inl rooted)
    · rename_i round reopening
      split_ifs at h with publishable
      cases h
      exact .publishes (.inr ⟨round, reopening, publishable⟩)
    · cases h
  | down =>
    simp only [step] at h
    split_ifs at h with up
    cases h
    exact .goesDown up
  | pass =>
    simp only [step] at h
    split at h
    · rename_i looping
      cases h
      exact .passes looping
    · cases h
  | owedSend =>
    simp only [step] at h
    split at h
    · rename_i fh rest looping releasing
      obtain ⟨r, sent, rfl⟩ := map_eq_some_iff.mp h
      exact .sendsOwed fh rest looping r.1 r.2 releasing sent
    · cases h
  | owedJoin x =>
    simp only [step] at h
    split at h
    · rename_i looping e releasing found
      split at h
      · rename_i fh serial how origin outcome
        split_ifs at h with unjoined
        cases h
        refine .joinsOwed x e fh serial how looping _ releasing found origin outcome unjoined.1
          unjoined.2 ?_
        cases how with
        | replied resp => exact .inl ⟨⟨resp, rfl⟩, rfl⟩
        | notSent | lost | protocol | gaveUp => exact .inr rfl
      · cases h
    · cases h
  | leave =>
    simp only [step] at h
    split at h
    · rename_i looping
      split_ifs at h with up
      cases h
      exact .leaves looping (by simpa using up)
    · cases h
  | releasesEnd =>
    simp only [step] at h
    split at h
    · rename_i left
      split_ifs at h with joined
      cases h
      exact .releasesEnd left joined
    · cases h
  | reconnect =>
    simp only [step] at h
    split at h
    · rename_i published released
      split_ifs at h with up
      cases h
      exact .reconnects published released (by simpa using up)
    · cases h

inductive SentMoves (c : Client) (action : Action) (x : ℕ) (e : Sent) : Sent → Prop where
  | stays : SentMoves c action x e e
  | writes (writing : e.stage = .writing) (up : (c.attached e.generation).up = true) :
      SentMoves c action x e { e with stage := .awaiting }
  | returns (how : Exchanged) (counted : Bool) (stage : SentStage) (calls : List Call)
      (named : action = .ends x how) (may : e.origin.mayReturn how = true)
      (returned : Returns c e how counted calls) (ends : e.stage.ends how counted = some stage) :
      SentMoves c action x e { e with stage := stage, outcome := some how }
  | answered (named : action = .cancelAnswered x) (cancelling : e.stage = .cancelling) :
      SentMoves c action x e { e with stage := .closed }
  | joins : SentMoves c action x e { e with joined := true }

theorem SentMoves.same {x : ℕ} {e e' : Sent} (h : SentMoves c action x e e') :
    e'.origin = e.origin ∧ e'.req = e.req ∧ e'.generation = e.generation := by
  cases h <;> exact ⟨rfl, rfl, rfl⟩

theorem sent_moves (moved : Steps c action c') {x : ℕ} {e : Sent} (found : c.sent[x]? = some e) :
    ∃ e', c'.sent[x]? = some e' ∧ SentMoves c action x e e' := by
  have written : ∀ {y : ℕ} {d d' : Sent}, c.sent[y]? = some d → SentMoves c action y d d' →
      ∃ e', (c.sent.set y d')[x]? = some e' ∧ SentMoves c action x e e' := by
    intro y d d' here moves
    by_cases same : x = y
    · subst same
      cases found.symm.trans here
      exact ⟨d', lookup_write found, moves⟩
    · exact ⟨e, (lookup_write_of_ne same).trans found, .stays⟩
  cases moved with
  | sends | sendsReopen | sendsOwed => exact ⟨e, lookup_add found, .stays⟩
  | writes _ _ here writing up => exact written here (.writes writing up)
  | returns _ _ how counted stage calls named here may returned ends =>
    exact written here (.returns how counted stage calls named may returned ends)
  | cancelAnswered _ _ named here cancelling =>
    exact written here (.answered named cancelling)
  | endsReopen _ _ _ _ _ _ _ _ here
  | joinsOwed _ _ _ _ _ _ _ _ here => exact written here .joins
  | _ => exact ⟨e, found, .stays⟩

/-- What an exchange is made for, at the action that makes it. -/
inductive Makes (c : Client) : Sent → Prop where
  | call (i : ℕ) (call : Call) (g : ℕ) (found : c.calls[i]? = some call)
      (taken : call.taken = some g) (published : (c.attached g).state.published = true)
      (waits : call.state.status = .waiting)
      (clear : call.state.changes = true → (c.attached g).state.cancels = 0) :
      Makes c ⟨.call i, call.req, g, .writing, none, false, c.overNow⟩
  | reopen (fh : ℕ) (rec : HandleRec) (round : ReopenRound)
      (reopening : c.manager = .reopening round) (unsent : round.unsent.lookup fh = some rec) :
      Makes c ⟨.reopen fh, rec.reopenRequest fh, c.generation, .writing, none, false, c.overNow⟩
  | owed (fh : ℕ) (owed : OwedRelease) (rest : List ℕ) (looping : Bool)
      (releasing : c.releasing = some ⟨fh :: rest, looping⟩)
      (held : c.handles.owed.lookup fh = some owed) :
      Makes c ⟨.owed fh owed.serial, owed.req, c.generation, .writing, none, false, c.overNow⟩

theorem sent_origin (moved : Steps c action c') {x : ℕ} {e' : Sent}
    (found : c'.sent[x]? = some e') :
    (∃ e, c.sent[x]? = some e ∧ SentMoves c action x e e') ∨ x = c.sent.length ∧ Makes c e' := by
  by_cases old : x < c.sent.length
  · obtain ⟨d, there, moves⟩ := sent_moves moved (List.getElem?_eq_getElem old)
    cases found.symm.trans there
    exact .inl ⟨_, List.getElem?_eq_getElem old, moves⟩
  right
  have added : ∀ {d : Sent}, (c.sent ++ [d])[x]? = some e' → x = c.sent.length ∧ e' = d := by
    intro d there
    rcases of_lookup_add there with before | new
    · exact absurd (lt_of_lookup before) old
    · exact new
  have kept : ∀ {sent : List Sent}, sent[x]? = some e' → sent.length = c.sent.length → False := by
    intro sent here same
    have := lt_of_lookup here
    omega
  cases moved with
  | sends i call g here taken takes clear =>
    simp only [CallState.takes, Bool.and_eq_true, decide_eq_true_eq] at takes
    obtain ⟨last, rfl⟩ := added found
    exact ⟨last, .call i call g here taken takes.1.2 takes.1.1 clear⟩
  | sendsReopen fh round _ _ reopening sent =>
    obtain ⟨rec, unsent, rfl, _⟩ := ReopenRound.send_eq_some sent
    obtain ⟨last, rfl⟩ := added found
    exact ⟨last, .reopen fh rec round reopening unsent⟩
  | sendsOwed fh rest looping _ owed releasing sent =>
    obtain ⟨last, rfl⟩ := added found
    exact ⟨last, .owed fh owed rest looping releasing (HandleTable.owedSend_eq_some sent).1⟩
  | writes | returns | cancelAnswered | endsReopen | joinsOwed =>
    exact (kept found (List.length_set ..)).elim
  | _ => exact (kept found rfl).elim

theorem makes_of_new (moved : Steps c action c') {e : Sent}
    (found : c'.sent[c.sent.length]? = some e) : Makes c e := by
  rcases sent_origin moved found with ⟨d, here, _⟩ | ⟨_, makes⟩
  · exact absurd (lt_of_lookup here) (Nat.lt_irrefl _)
  · exact makes

end Steps

end JackalopeFs.ClientTasks
