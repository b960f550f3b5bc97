import JackalopeFs.SessionAttendance

/-! # The tasks that serve a session's requests

Every accepted stream has a task (`handle_request`), and the task of a decoded
request hands its operation to a blocking thread.  The phase of the exchange is
changed from both, by the drop of the guard included, while the client may give up
on the request and other connections may resume the session.  This module gives
each request its two program points, says at each point which calls may come next,
and runs the functions of `SessionState` there.

A call that the program points allow but that meets an assertion or an unreachable
branch is a refused step that was offered.  The wait of a held change is taken
apart as `drain` is: it enables a `Notified`, looks, and sleeps.  Of the runtime's
`Notify` only this is used: a `Notified` enabled before `notify_waiters` is woken
by it.  The frames, the replies and the operation itself play no part; an operation
that panics drops its guard like one that returns.  Tasks run to their end.
-/

namespace JackalopeFs.RequestTasks

open IndexedCells TransitionRuns SessionExchange
open SessionAttendance (terminal ended)

/-- Where the `drain` of a held change is: without a `Notified`, with one enabled before the look,
or awaiting it after the look.  The flag says that it has been notified since. -/
inductive Waiter where
  | idle
  | registered (woken : Bool)
  | asleep (woken : Bool)
  deriving DecidableEq, Repr

/-- Where `handle_request` is: reading the request, in the wait of a held change, at the operation
it has handed over, awaiting only that operation since the client gave up, or past it. -/
inductive Handler where
  | reading
  | waiting (waiter : Waiter)
  | queued
  | joining
  | returned
  deriving DecidableEq, Repr

/-- Where the closure on the blocking thread is; `notifying` is the guard's drop between letting go
of the attachment's lock and `notify_waiters`. -/
inductive Closure where
  | unspawned
  | spawned
  | running
  | notifying
  | ended
  deriving DecidableEq, Repr

structure Point where
  handler : Handler
  closure : Closure
  deriving DecidableEq, Repr

/-- The next thing one request's task or closure does. -/
inductive Move where
  | undecoded
  | decode (ordered : Bool)
  | register
  | look
  | cancelHeld
  | stop
  | begin
  | finish
  | notify
  | cancel
  | join
  deriving DecidableEq, Repr

def orderedStage : Stage → Bool
  | .exchange x => x.ordered
  | _ => false

/-- The moves that a request can make from its program points, whatever its phase is.  The task of
a held change hears of a cancel or of the end of its stream whenever its `drain` is pending; after
that only the task of a change listens for a cancel. -/
def offered (p : Point) (stage : Stage) : Move → Bool
  | .undecoded | .decode _ => p.handler = .reading
  | .register => p.handler = .waiting .idle || p.handler = .waiting (.asleep true)
  | .look => p.handler = .waiting (.registered false) || p.handler = .waiting (.registered true)
  | .cancelHeld | .stop =>
    match p.handler with
    | .waiting .idle | .waiting (.asleep _) => true
    | _ => false
  | .begin => p.closure = .spawned
  | .finish => p.closure = .running
  | .notify => p.closure = .notifying
  | .cancel => p.handler = .queued && orderedStage stage
  | .join => (p.handler = .queued || p.handler = .joining) && p.closure = .ended

namespace Point

/-- The await of the `Notified` that was enabled before the look. -/
def sleeps (p : Point) : Point :=
  match p.handler with
  | .waiting (.registered woken) => { p with handler := .waiting (.asleep woken) }
  | _ => p

def notified (p : Point) : Point :=
  match p.handler with
  | .waiting (.registered _) => { p with handler := .waiting (.registered true) }
  | .waiting (.asleep _) => { p with handler := .waiting (.asleep true) }
  | _ => p

end Point

/-- Call a function of the session for the request's exchange. -/
def onExchange (stage : Stage) (f : Exchange → Option (Attachment × Exchange × Point)) :
    Option (Attachment × Point × Stage) :=
  match stage with
  | .exchange x => (f x).map fun r => (r.1, r.2.2, .exchange r.2.1)
  | _ => none

/-- One move of a request accepted on the connection attached at `epoch`. -/
def turn (a : Attachment) (epoch : ℕ) (p : Point) (stage : Stage) :
    Move → Option (Attachment × Point × Stage)
  | .undecoded => some (a, ⟨.returned, .unspawned⟩, .undecoded)
  | .decode ordered =>
    let decoded := fencing a epoch (.new ordered)
    some (a, if 0 < decoded.2 then ⟨.waiting .idle, .unspawned⟩ else ⟨.queued, .spawned⟩,
      .exchange decoded.1)
  | .register => some (a, { p with handler := .waiting (.registered false) }, stage)
  | .look =>
    onExchange stage fun x => (drained a epoch x).map fun r =>
      match r.2 with
      | none => (a, r.1, p.sleeps)
      | some true => (a, r.1, ⟨.queued, .spawned⟩)
      | some false => (a, r.1, ⟨.returned, .unspawned⟩)
  | .cancelHeld =>
    onExchange stage fun x => (abandon a epoch x).bind fun r =>
      -- the source asserts here that the change had not begun
      if r.2.2 = .unrun then some (r.1, r.2.1, ⟨.returned, .unspawned⟩) else none
  | .stop => onExchange stage fun x => (stopped x).map fun x' => (a, x', ⟨.returned, .unspawned⟩)
  | .begin =>
    onExchange stage fun x => (begin a epoch x).map fun r =>
      (r.1, r.2.1, { p with closure := if r.2.2 then .running else .ended })
  | .finish =>
    onExchange stage fun x => (guardDrop a epoch x).map fun r =>
      (r.1, r.2.1, { p with closure := if r.2.2 then .notifying else .ended })
  | .notify => some (a, { p with closure := .ended }, stage)
  | .cancel =>
    onExchange stage fun x => (abandon a epoch x).map fun r =>
      (r.1, r.2.1, { p with handler := if r.2.2 = .unrun then .returned else .joining })
  | .join => some (a, { p with handler := .returned }, stage)

/-- A session with the tasks of its requests.  `conns` counts the connections that hold it, and
`resuming` the resumes that have moved the epoch and not yet notified. -/
structure Tasks where
  session : SessionState
  points : List Point
  conns : ℕ
  resuming : ℕ
  deriving DecidableEq, Repr

inductive Action where
  | accept (epoch : ℕ)
  | request (i : ℕ) (move : Move)
  | resume
  | announce
  | hold
  | letGo
  | detach (epoch now : ℕ)
  deriving DecidableEq, Repr

namespace Tasks

/-- Store what a move made of request `i`; the holder of an exchange that ends, or of a stream that
is never decoded, is dropped. -/
def put (s : Tasks) (i : ℕ) (task : RequestTask) (a' : Attachment) (p' : Point) (stage' : Stage) :
    Tasks :=
  let task' : RequestTask := { task with stage := stage' }
  { s with
    session := { s.session with
      attachment := a'
      holders := if task.holds && !task'.holds then s.session.holders - 1 else s.session.holders
      requests := s.session.requests.set i task' }
    points := s.points.set i p' }

def notifyWaiters (s : Tasks) : Tasks :=
  { s with points := s.points.map Point.notified }

def heard (s : Tasks) (move : Move) : Tasks :=
  if move = .notify then s.notifyWaiters else s

end Tasks

def enabled (s : Tasks) : Action → Bool
  | .request i move =>
    match s.points[i]?, s.session.requests[i]? with
    | some p, some task => offered p task.stage move
    | _, _ => false
  | .announce => 0 < s.resuming
  | .letGo => 0 < s.conns
  | .accept _ | .resume | .hold | .detach _ _ => true

def act (s : Tasks) : Action → Option Tasks
  | .accept epoch =>
    some { s with
      session := { s.session with
        holders := s.session.holders + 1
        requests := s.session.requests ++ [⟨epoch, .accepted⟩] }
      points := s.points ++ [⟨.reading, .unspawned⟩] }
  | .request i move =>
    match s.points[i]?, s.session.requests[i]? with
    | some p, some task =>
      (turn s.session.attachment task.epoch p task.stage move).map fun r =>
        (s.heard move).put i task r.1 r.2.1 r.2.2
    | _, _ => none
  | .resume =>
    some { s with
      session := { s.session with attachment := s.session.attachment.resumed }
      resuming := s.resuming + 1 }
  | .announce => some { s.notifyWaiters with resuming := s.resuming - 1 }
  | .hold =>
    some { s with
      session := { s.session with holders := s.session.holders + 1 }
      conns := s.conns + 1 }
  | .letGo =>
    some { s with
      session := { s.session with holders := s.session.holders - 1 }
      conns := s.conns - 1 }
  | .detach epoch now =>
    some (if s.session.attachment.epoch = epoch then
      { s with session := { s.session with
        attachment := { s.session.attachment with detachedAt := some now } } } else s)

def step (s : Tasks) (action : Action) : Option Tasks :=
  if enabled s action then act s action else none

def machine (id token : ℕ) : Machine Tasks Action :=
  ⟨⟨.new id token, [], 0, 0⟩, step⟩

/-- The phases that a request can be in at each pair of program points. -/
inductive Fits : Point → Stage → Prop where
  | reading : Fits ⟨.reading, .unspawned⟩ .accepted
  | undecoded : Fits ⟨.returned, .unspawned⟩ .undecoded
  | held (waiter : Waiter) : Fits ⟨.waiting waiter, .unspawned⟩ (.exchange ⟨true, .held, true⟩)
  | unspawned (last : PhaseExchange)
      (unrun : last = .cancelled ∨ last = .superseded ∨ last = .dropped) :
      Fits ⟨.returned, .unspawned⟩ (.exchange ⟨true, last, false⟩)
  | ready (ordered : Bool) : Fits ⟨.queued, .spawned⟩ (.exchange ⟨ordered, .ready, true⟩)
  | detached : Fits ⟨.returned, .spawned⟩ (.exchange ⟨true, .cancelled, false⟩)
  | running (ordered : Bool) : Fits ⟨.queued, .running⟩ (.exchange ⟨ordered, .running, true⟩)
  | abandoned : Fits ⟨.joining, .running⟩ (.exchange ⟨true, .abandoned, true⟩)
  | notifying (handler : Handler) (awaits : handler = .queued ∨ handler = .joining) :
      Fits ⟨handler, .notifying⟩ (.exchange ⟨true, .finished, false⟩)
  | finished (ordered : Bool) (handler : Handler)
      (spawned : handler = .queued ∨ handler = .joining ∨ handler = .returned) :
      Fits ⟨handler, .ended⟩ (.exchange ⟨ordered, .finished, false⟩)
  | superseded (handler : Handler)
      (spawned : handler = .queued ∨ handler = .joining ∨ handler = .returned) :
      Fits ⟨handler, .ended⟩ (.exchange ⟨true, .superseded, false⟩)
  | cancelled : Fits ⟨.returned, .ended⟩ (.exchange ⟨true, .cancelled, false⟩)

/-- Everything that one move can do, from the points and phases that fit. -/
inductive Turns (a : Attachment) (epoch : ℕ) :
    Move → Point → Stage → Attachment → Point → Stage → Prop where
  | undecodes :
      Turns a epoch .undecoded ⟨.reading, .unspawned⟩ .accepted
        a ⟨.returned, .unspawned⟩ .undecoded
  | decodesHeld (current : a.epoch = epoch) (fenced : 0 < a.runningOlder + a.abandoned) :
      Turns a epoch (.decode true) ⟨.reading, .unspawned⟩ .accepted
        a ⟨.waiting .idle, .unspawned⟩ (.exchange ⟨true, .held, true⟩)
  | decodesReady (ordered : Bool) :
      Turns a epoch (.decode ordered) ⟨.reading, .unspawned⟩ .accepted
        a ⟨.queued, .spawned⟩ (.exchange ⟨ordered, .ready, true⟩)
  | registers (waiter : Waiter) :
      Turns a epoch .register ⟨.waiting waiter, .unspawned⟩ (.exchange ⟨true, .held, true⟩)
        a ⟨.waiting (.registered false), .unspawned⟩ (.exchange ⟨true, .held, true⟩)
  | sleeps (woken : Bool) (current : a.epoch = epoch) (fenced : 0 < a.runningOlder + a.abandoned) :
      Turns a epoch .look ⟨.waiting (.registered woken), .unspawned⟩
        (.exchange ⟨true, .held, true⟩)
        a ⟨.waiting (.asleep woken), .unspawned⟩ (.exchange ⟨true, .held, true⟩)
  | drains (woken : Bool) (current : a.epoch = epoch) (clear : a.runningOlder + a.abandoned = 0) :
      Turns a epoch .look ⟨.waiting (.registered woken), .unspawned⟩
        (.exchange ⟨true, .held, true⟩)
        a ⟨.queued, .spawned⟩ (.exchange ⟨true, .ready, true⟩)
  | supersedes (woken : Bool) (stale : a.epoch ≠ epoch) :
      Turns a epoch .look ⟨.waiting (.registered woken), .unspawned⟩
        (.exchange ⟨true, .held, true⟩)
        a ⟨.returned, .unspawned⟩ (.exchange ⟨true, .superseded, false⟩)
  | cancelsHeld (waiter : Waiter) :
      Turns a epoch .cancelHeld ⟨.waiting waiter, .unspawned⟩ (.exchange ⟨true, .held, true⟩)
        a ⟨.returned, .unspawned⟩ (.exchange ⟨true, .cancelled, false⟩)
  | stops (waiter : Waiter) :
      Turns a epoch .stop ⟨.waiting waiter, .unspawned⟩ (.exchange ⟨true, .held, true⟩)
        a ⟨.returned, .unspawned⟩ (.exchange ⟨true, .dropped, false⟩)
  | beginsChange (current : a.epoch = epoch) :
      Turns a epoch .begin ⟨.queued, .spawned⟩ (.exchange ⟨true, .ready, true⟩)
        { a with running := a.running + 1 } ⟨.queued, .running⟩ (.exchange ⟨true, .running, true⟩)
  | beginsOther :
      Turns a epoch .begin ⟨.queued, .spawned⟩ (.exchange ⟨false, .ready, true⟩)
        a ⟨.queued, .running⟩ (.exchange ⟨false, .running, true⟩)
  | beginsStale (stale : a.epoch ≠ epoch) :
      Turns a epoch .begin ⟨.queued, .spawned⟩ (.exchange ⟨true, .ready, true⟩)
        a ⟨.queued, .ended⟩ (.exchange ⟨true, .superseded, false⟩)
  | beginsCancelled :
      Turns a epoch .begin ⟨.returned, .spawned⟩ (.exchange ⟨true, .cancelled, false⟩)
        a ⟨.returned, .ended⟩ (.exchange ⟨true, .cancelled, false⟩)
  | finishes (handler : Handler) (x : Exchange) (a' : Attachment) (wakes : Bool)
      (awaits : handler = .queued ∨ handler = .joining) (guarded : x.guarded = true)
      (dropped : guardDrop a epoch x = some (a', x.endAs .finished, wakes)) :
      Turns a epoch .finish ⟨handler, .running⟩ (.exchange x)
        a' ⟨handler, if wakes then .notifying else .ended⟩ (.exchange (x.endAs .finished))
  | notifies (handler : Handler) (awaits : handler = .queued ∨ handler = .joining) :
      Turns a epoch .notify ⟨handler, .notifying⟩ (.exchange ⟨true, .finished, false⟩)
        a ⟨handler, .ended⟩ (.exchange ⟨true, .finished, false⟩)
  | cancelsReady :
      Turns a epoch .cancel ⟨.queued, .spawned⟩ (.exchange ⟨true, .ready, true⟩)
        a ⟨.returned, .spawned⟩ (.exchange ⟨true, .cancelled, false⟩)
  | abandonsCurrent (current : a.epoch = epoch) :
      Turns a epoch .cancel ⟨.queued, .running⟩ (.exchange ⟨true, .running, true⟩)
        { a with abandoned := a.abandoned + 1 } ⟨.joining, .running⟩
        (.exchange ⟨true, .abandoned, true⟩)
  | abandonsOlder (stale : a.epoch ≠ epoch) :
      Turns a epoch .cancel ⟨.queued, .running⟩ (.exchange ⟨true, .running, true⟩)
        a ⟨.joining, .running⟩ (.exchange ⟨true, .abandoned, true⟩)
  | cancelsLate (closure : Closure) (x : Exchange) (fits : Fits ⟨.queued, closure⟩ (.exchange x))
      (over' : x.phase = .finished ∨ x.phase = .superseded) (ordered : x.ordered = true) :
      Turns a epoch .cancel ⟨.queued, closure⟩ (.exchange x) a ⟨.joining, closure⟩ (.exchange x)
  | joins (handler : Handler) (x : Exchange) (fits : Fits ⟨handler, .ended⟩ (.exchange x))
      (awaits : handler = .queued ∨ handler = .joining) :
      Turns a epoch .join ⟨handler, .ended⟩ (.exchange x) a ⟨.returned, .ended⟩ (.exchange x)

section Specifications

variable {a a' : Attachment} {epoch : ℕ} {p p' : Point} {stage stage' : Stage} {move : Move}

theorem guardDrop_ends {x x' : Exchange} {wakes : Bool}
    (h : guardDrop a epoch x = some (a', x', wakes)) :
    x' = x.endAs .finished ∧ (wakes = true → x.ordered = true) := by
  simp only [guardDrop] at h
  by_cases ordered : x.ordered = true
  · split_ifs at h <;> cases h <;> exact ⟨rfl, fun _ => ordered⟩
  · rw [if_neg ordered] at h
    cases h
    exact ⟨rfl, fun woken => by cases woken⟩

/-- The guard's drop wakes the waiters when it takes away the last change they wait for. -/
theorem guardDrop_wakes {x x' : Exchange} {wakes : Bool}
    (h : guardDrop a epoch x = some (a', x', wakes)) :
    a'.epoch = a.epoch ∧ (0 < a.runningOlder + a.abandoned →
      a'.runningOlder + a'.abandoned = 0 → wakes = true) := by
  simp only [guardDrop] at h
  split_ifs at h <;> cases h <;>
    refine ⟨rfl, fun fenced clear => ?_⟩ <;> simp_all

theorem decode_turns (ordered : Bool) :
    ∃ a' p' stage', turn a epoch ⟨.reading, .unspawned⟩ .accepted (.decode ordered) =
        some (a', p', stage') ∧
      Turns a epoch (.decode ordered) ⟨.reading, .unspawned⟩ .accepted a' p' stage' := by
  by_cases fenced : ordered ∧ a.epoch = epoch ∧ 0 < a.runningOlder + a.abandoned
  · obtain ⟨rfl, current, positive⟩ := fenced
    exact ⟨_, _, _, by simp [turn, fencing, Exchange.new, current, positive],
      .decodesHeld current positive⟩
  · have free : fencing a epoch (.new ordered) = (.new ordered, 0) := by
      cases ordered with
      | false => rfl
      | true =>
        by_cases current : a.epoch = epoch <;> simp_all [fencing, Exchange.new]
    exact ⟨_, _, _, by simp only [turn, free]; rfl, .decodesReady ordered⟩

theorem look_turns (woken : Bool) :
    ∃ a' p' stage', turn a epoch ⟨.waiting (.registered woken), .unspawned⟩
        (.exchange ⟨true, .held, true⟩) .look = some (a', p', stage') ∧
      Turns a epoch .look ⟨.waiting (.registered woken), .unspawned⟩
        (.exchange ⟨true, .held, true⟩) a' p' stage' := by
  by_cases current : a.epoch = epoch
  · by_cases clear : a.runningOlder + a.abandoned = 0
    · exact ⟨_, _, _, by simp [turn, onExchange, drained, current, clear],
        .drains woken current clear⟩
    · have looked : drained a epoch ⟨true, .held, true⟩ = some (⟨true, .held, true⟩, none) := by
        rw [drained, if_pos rfl, if_neg (not_not.mpr current), if_neg clear]
      exact ⟨_, _, _, by simp [turn, onExchange, looked, Point.sleeps],
        .sleeps woken current (by omega)⟩
  · exact ⟨_, _, _, by simp [turn, onExchange, drained, current, Exchange.endAs],
      .supersedes woken current⟩

theorem begin_turns (ordered : Bool) :
    ∃ a' p' stage', turn a epoch ⟨.queued, .spawned⟩ (.exchange ⟨ordered, .ready, true⟩) .begin =
        some (a', p', stage') ∧
      Turns a epoch .begin ⟨.queued, .spawned⟩ (.exchange ⟨ordered, .ready, true⟩) a' p'
        stage' := by
  cases ordered with
  | false => exact ⟨_, _, _, rfl, .beginsOther⟩
  | true =>
    by_cases current : a.epoch = epoch
    · exact ⟨_, _, _, by simp [turn, onExchange, begin, current], .beginsChange current⟩
    · exact ⟨_, _, _, by simp [turn, onExchange, begin, current, Exchange.endAs],
        .beginsStale current⟩

theorem finish_turns {handler : Handler} {x : Exchange}
    (awaits : handler = .queued ∨ handler = .joining) (guarded : x.guarded = true)
    (countable : (guardDrop a epoch x).isSome) :
    ∃ a' p' stage', turn a epoch ⟨handler, .running⟩ (.exchange x) .finish =
        some (a', p', stage') ∧
      Turns a epoch .finish ⟨handler, .running⟩ (.exchange x) a' p' stage' := by
  obtain ⟨⟨a', x', wakes⟩, dropped⟩ := Option.isSome_iff_exists.mp countable
  obtain ⟨rfl, -⟩ := guardDrop_ends dropped
  exact ⟨_, _, _, by simp [turn, onExchange, dropped],
    .finishes handler x a' wakes awaits guarded dropped⟩

/-- From points that fit, a move that is offered is made, as long as a begun change can be taken
from the counts again. -/
theorem Fits.turns (fits : Fits p stage) (may : offered p stage move = true)
    (countable : ∀ x, stage = .exchange x → x.guarded = true → (guardDrop a epoch x).isSome) :
    ∃ a' p' stage', turn a epoch p stage move = some (a', p', stage') ∧
      Turns a epoch move p stage a' p' stage' := by
  cases fits with
  | reading =>
    cases move <;> simp [offered] at may
    case undecoded => exact ⟨_, _, _, rfl, .undecodes⟩
    case decode ordered => exact decode_turns ordered
  | undecoded => cases move <;> simp [offered] at may
  | held waiter =>
    cases move <;> simp [offered] at may
    case register => exact ⟨_, _, _, rfl, .registers waiter⟩
    case look =>
      obtain rfl | rfl := may
      · exact look_turns false
      · exact look_turns true
    case cancelHeld => exact ⟨_, _, _, rfl, .cancelsHeld waiter⟩
    case stop => exact ⟨_, _, _, rfl, .stops waiter⟩
  | unspawned => cases move <;> simp [offered] at may
  | ready ordered =>
    cases move <;> simp [offered, orderedStage] at may
    case begin => exact begin_turns ordered
    case cancel =>
      cases may
      exact ⟨_, _, _, rfl, .cancelsReady⟩
  | detached =>
    cases move <;> simp [offered] at may
    exact ⟨_, _, _, rfl, .beginsCancelled⟩
  | running =>
    cases move <;> simp [offered, orderedStage] at may
    case finish => exact finish_turns (.inl rfl) rfl (countable _ rfl rfl)
    case cancel =>
      cases may
      by_cases current : a.epoch = epoch
      · exact ⟨_, _, _, by simp [turn, onExchange, abandon, current], .abandonsCurrent current⟩
      · exact ⟨_, _, _, by simp [turn, onExchange, abandon, current], .abandonsOlder current⟩
  | abandoned =>
    cases move <;> simp [offered] at may
    exact finish_turns (.inr rfl) rfl (countable _ rfl rfl)
  | notifying _ awaits =>
    obtain rfl | rfl := awaits <;> cases move <;> simp [offered, orderedStage] at may
    case inl.notify => exact ⟨_, _, _, rfl, .notifies _ (.inl rfl)⟩
    case inl.cancel =>
      exact ⟨_, _, _, rfl, .cancelsLate _ _ (.notifying _ (.inl rfl)) (.inl rfl) rfl⟩
    case inr.notify => exact ⟨_, _, _, rfl, .notifies _ (.inr rfl)⟩
  | finished _ _ spawned =>
    obtain rfl | rfl | rfl := spawned <;> cases move <;> simp [offered, orderedStage] at may
    case inl.cancel =>
      cases may
      exact ⟨_, _, _, rfl, .cancelsLate _ _ (.finished _ _ (.inl rfl)) (.inl rfl) rfl⟩
    case inl.join => exact ⟨_, _, _, rfl, .joins _ _ (.finished _ _ (by simp)) (by simp)⟩
    case inr.inl.join => exact ⟨_, _, _, rfl, .joins _ _ (.finished _ _ (by simp)) (by simp)⟩
  | superseded _ spawned =>
    obtain rfl | rfl | rfl := spawned <;> cases move <;> simp [offered, orderedStage] at may
    case inl.cancel =>
      exact ⟨_, _, _, rfl, .cancelsLate _ _ (.superseded _ (.inl rfl)) (.inr rfl) rfl⟩
    case inl.join => exact ⟨_, _, _, rfl, .joins _ _ (.superseded _ (by simp)) (by simp)⟩
    case inr.inl.join => exact ⟨_, _, _, rfl, .joins _ _ (.superseded _ (by simp)) (by simp)⟩
  | cancelled => cases move <;> simp [offered] at may

/-- How far a request is from the end of its task and closure. -/
def rank (p : Point) : ℕ :=
  (match p.handler with
    | .reading => 7
    | .waiting _ => 6
    | .queued => 2
    | .joining => 1
    | .returned => 0) +
  match p.closure with
    | .unspawned | .ended => 0
    | .spawned => 3
    | .running => 2
    | .notifying => 1

namespace Turns

section

variable (h : Turns a epoch move p stage a' p' stage')

include h

theorem fits : Fits p' stage' := by
  cases h with
  | undecodes => exact .undecoded
  | decodesHeld | registers | sleeps => exact .held _
  | decodesReady | drains => exact .ready _
  | supersedes => exact .unspawned _ (by simp)
  | cancelsHeld => exact .unspawned _ (by simp)
  | stops => exact .unspawned _ (by simp)
  | beginsChange | beginsOther => exact .running _
  | beginsStale => exact .superseded _ (by simp)
  | beginsCancelled => exact .cancelled
  | finishes _ x _ wakes awaits _ dropped =>
    have changed := (guardDrop_ends dropped).2
    obtain ⟨ordered, phase, holder⟩ := x
    cases wakes with
    | false => exact .finished _ _ (awaits.imp_right Or.inl)
    | true =>
      cases changed rfl
      exact .notifying _ awaits
  | notifies _ awaits => exact .finished _ _ (awaits.imp_right Or.inl)
  | cancelsReady => exact .detached
  | abandonsCurrent | abandonsOlder => exact .abandoned
  | cancelsLate _ _ fits over' =>
    cases fits with
    | ready | running => simp at over'
    | notifying => exact .notifying _ (by simp)
    | finished => exact .finished _ _ (by simp)
    | superseded => exact .superseded _ (by simp)
  | joins _ _ fits =>
    cases fits with
    | finished => exact .finished _ _ (by simp)
    | superseded => exact .superseded _ (by simp)
    | cancelled => exact .cancelled

theorem ended_stays
    (last : ended ⟨epoch, stage⟩ = true) : stage' = stage := by
  cases h with
  | beginsCancelled | notifies | cancelsLate | joins => rfl
  | finishes _ x _ _ _ guarded =>
    exfalso
    cases phase : x.phase <;> simp_all [Exchange.guarded, ended, terminal]
  | _ => cases last

theorem holds_of_holds
    (holds : (RequestTask.mk epoch stage').holds = true) :
    (RequestTask.mk epoch stage).holds = true := by
  cases h with
  | cancelsLate | joins => exact holds
  | finishes | undecodes | supersedes | cancelsHeld | stops | beginsStale | beginsCancelled
  | notifies | cancelsReady => cases holds
  | _ => rfl

/-- Every move brings the request nearer to its end, but for the moves of a wait that goes on. -/
theorem rank_le :
    rank p' ≤ rank p ∧
      (rank p' = rank p → move = .register ∨ move = .look ∧ ∃ w, p'.handler = .waiting w) := by
  cases h with
  | registers => exact ⟨Nat.le_refl _, fun _ => .inl rfl⟩
  | sleeps => exact ⟨Nat.le_refl _, fun _ => .inr ⟨rfl, _, rfl⟩⟩
  | finishes _ _ _ wakes => cases wakes <;> simp [rank]
  | joins _ _ _ awaits => obtain rfl | rfl := awaits <;> simp [rank]
  | cancelsLate closure => cases closure <;> simp [rank]
  | _ => simp [rank]

theorem counted {tasks : List RequestTask} {i : ℕ}
    (count : Counted a tasks) (found : tasks[i]? = some ⟨epoch, stage⟩) :
    Counted a' (tasks.set i ⟨epoch, stage'⟩) := by
  cases h with
  | undecodes | decodesHeld => exact count.write_idle found rfl rfl rfl rfl rfl
  | decodesReady ordered => cases ordered <;> exact count.write_idle found rfl rfl rfl rfl rfl
  | drains _ current clear => exact count.move found (.drains rfl current clear)
  | supersedes _ stale =>
    exact count.move found (.endsUnbegun _ (.inl rfl) (.inr (.inl ⟨rfl, stale⟩)))
  | cancelsHeld => exact count.move found (.endsUnbegun _ (.inl rfl) (.inl rfl))
  | stops => exact count.move found (.endsUnbegun _ (.inl rfl) (.inr (.inr rfl)))
  | beginsChange current => exact count.move found (.starts rfl rfl current)
  | beginsOther => exact count.move found (.startsUnordered rfl rfl)
  | beginsStale stale =>
    exact count.move found (.endsUnbegun _ (.inr rfl) (.inr (.inl ⟨rfl, stale⟩)))
  | finishes _ _ _ _ _ guarded dropped =>
    exact count.move found (guardDrop_moves guarded dropped)
  | cancelsReady => exact count.move found (.endsUnbegun _ (.inr rfl) (.inl rfl))
  | abandonsCurrent current => exact count.move found (.abandonsCurrent rfl rfl current)
  | abandonsOlder stale => exact count.move found (.abandonsOlder rfl rfl stale)
  | _ => exact count.move found .stays

/-- A move leaves the epoch, and only the drop of a guard that then notifies takes away the last
change that others wait for. -/
theorem lifts :
    a'.epoch = a.epoch ∧ (0 < a.runningOlder + a.abandoned → a'.runningOlder + a'.abandoned = 0 →
      move = .finish ∧ p'.closure = .notifying) := by
  cases h with
  | finishes _ _ _ _ _ _ dropped =>
    obtain ⟨same, woken⟩ := guardDrop_wakes dropped
    refine ⟨same, fun fenced clear => ⟨rfl, ?_⟩⟩
    rw [woken fenced clear]
    rfl
  | beginsChange => exact ⟨rfl, fun fenced clear => absurd clear (Nat.ne_of_gt fenced)⟩
  | abandonsCurrent => exact ⟨rfl, fun fenced clear => absurd clear (by simp)⟩
  | _ => exact ⟨rfl, fun fenced clear => absurd clear (Nat.ne_of_gt fenced)⟩

end

/-- A held change moves without touching the counts, and stays held or leaves that phase. -/
theorem of_held {x : Exchange} (h : Turns a epoch move p (.exchange x) a' p' stage')
    (held : x.phase = .held) :
    a' = a ∧ (stage' = .exchange x ∨ ∀ y, stage' = .exchange y → y.phase ≠ .held) := by
  cases h with
  | registers | sleeps => exact ⟨rfl, .inl rfl⟩
  | drains | supersedes | cancelsHeld | stops =>
    refine ⟨rfl, .inr ?_⟩
    rintro y ⟨⟩ ⟨⟩
  | finishes _ _ _ _ _ guarded =>
    simp [Exchange.guarded, held] at guarded
  | cancelsLate | joins => exact ⟨rfl, .inl rfl⟩
  | _ => cases held

theorem notifying_stays (h : Turns a epoch move p stage a' p' stage')
    (pending : p.closure = .notifying) (other : move ≠ .notify) : p'.closure = .notifying := by
  cases h with
  | notifies => exact absurd rfl other
  | cancelsLate => exact pending
  | _ => cases pending

/-- Only a look that finds the change still fenced puts its task to sleep unwoken. -/
theorem of_asleep (h : Turns a epoch move p stage a' p' stage')
    (sleeps : p'.handler = .waiting (.asleep false)) :
    a'.epoch = epoch ∧ 0 < a'.runningOlder + a'.abandoned := by
  cases h with
  | sleeps _ current fenced => exact ⟨current, fenced⟩
  | finishes _ _ _ _ awaits | notifies _ awaits =>
    obtain rfl | rfl := awaits <;> cases sleeps
  | _ => cases sleeps

end Turns

end Specifications

inductive Steps (s : Tasks) : Action → Tasks → Prop where
  | accepts (epoch : ℕ) :
      Steps s (.accept epoch) { s with
        session := { s.session with
          holders := s.session.holders + 1
          requests := s.session.requests ++ [⟨epoch, .accepted⟩] }
        points := s.points ++ [⟨.reading, .unspawned⟩] }
  | turns (i epoch : ℕ) (move : Move) (p p' : Point) (stage stage' : Stage) (a' : Attachment)
      (point : s.points[i]? = some p) (found : s.session.requests[i]? = some ⟨epoch, stage⟩)
      (turn : Turns s.session.attachment epoch move p stage a' p' stage') :
      Steps s (.request i move) ((s.heard move).put i ⟨epoch, stage⟩ a' p' stage')
  | resumes :
      Steps s .resume { s with
        session := { s.session with attachment := s.session.attachment.resumed }
        resuming := s.resuming + 1 }
  | announces (pending : 0 < s.resuming) :
      Steps s .announce { s.notifyWaiters with resuming := s.resuming - 1 }
  | holds :
      Steps s .hold { s with
        session := { s.session with holders := s.session.holders + 1 }
        conns := s.conns + 1 }
  | letsGo (attached : 0 < s.conns) :
      Steps s .letGo { s with
        session := { s.session with holders := s.session.holders - 1 }
        conns := s.conns - 1 }
  | detaches (epoch now : ℕ) (since : Option ℕ) :
      Steps s (.detach epoch now) { s with session := { s.session with
        attachment := { s.session.attachment with detachedAt := since } } }

/-- The counts are exact, every request is at points that fit its phase, and the session is held by
its connections and by the requests that have not ended, once each. -/
structure Sound (s : Tasks) : Prop where
  counted : Counted s.session.attachment s.session.requests
  fits : List.Forall₂ (fun p task => Fits p task.stage) s.points s.session.requests
  held : s.session.holders = s.conns + s.session.requests.countP RequestTask.holds

section Runs

variable {s t : Tasks} {action : Action} {i epoch : ℕ} {move : Move} {p p' : Point}
  {stage stage' : Stage} {a' : Attachment}

theorem heard_of_ne (s : Tasks) (other : move ≠ .notify) : s.heard move = s :=
  if_neg other

theorem heard_session (s : Tasks) (move : Move) : (s.heard move).session = s.session := by
  unfold Tasks.heard
  split_ifs <;> rfl

theorem put_point (point : s.points[i]? = some p) (task : RequestTask) :
    ((s.heard move).put i task a' p' stage').points[i]? = some p' := by
  by_cases told : move = .notify
  · have after : s.notifyWaiters.points[i]? = some p.notified := by
      simp [Tasks.notifyWaiters, point]
    rw [told]
    exact lookup_write after
  · rw [heard_of_ne s told]
    exact lookup_write point

theorem put_request (found : s.session.requests[i]? = some ⟨epoch, stage⟩) :
    ((s.heard move).put i ⟨epoch, stage⟩ a' p' stage').session.requests[i]? =
      some ⟨epoch, stage'⟩ := by
  simp only [Tasks.put, heard_session]
  exact lookup_write found

theorem Fits.notified (h : Fits p stage) : Fits p.notified stage := by
  cases h with
  | held waiter => cases waiter <;> exact .held _
  | notifying _ awaits =>
    obtain rfl | rfl := awaits <;> exact .notifying _ (by simp)
  | finished _ _ spawned =>
    obtain rfl | rfl | rfl := spawned <;> exact .finished _ _ (by simp)
  | superseded _ spawned =>
    obtain rfl | rfl | rfl := spawned <;> exact .superseded _ (by simp)
  | unspawned last unrun => exact .unspawned last unrun
  | reading => exact .reading
  | undecoded => exact .undecoded
  | ready ordered => exact .ready ordered
  | detached => exact .detached
  | running ordered => exact .running ordered
  | abandoned => exact .abandoned
  | cancelled => exact .cancelled

theorem Sound.fits_at (h : Sound s) (point : s.points[i]? = some p)
    (found : s.session.requests[i]? = some ⟨epoch, stage⟩) : Fits p stage := by
  have related := related_of_lookups h.fits point found
  exact related

theorem Sound.notifyWaiters (h : Sound s) : Sound s.notifyWaiters :=
  ⟨h.counted, List.forall₂_map_left_iff.mpr (h.fits.imp fun _ _ fits => fits.notified), h.held⟩

theorem Sound.heard (h : Sound s) (move : Move) : Sound (s.heard move) := by
  unfold Tasks.heard
  split_ifs
  · exact h.notifyWaiters
  · exact h

theorem Sound.put (h : Sound s) (found : s.session.requests[i]? = some ⟨epoch, stage⟩)
    (turn : Turns s.session.attachment epoch move p stage a' p' stage') :
    Sound (s.put i ⟨epoch, stage⟩ a' p' stage') where
  counted := turn.counted h.counted found
  fits := related_write h.fits turn.fits
  held := by
    have count := countP_write RequestTask.holds ⟨epoch, stage'⟩ found
    have kept := turn.holds_of_holds
    have before := h.held
    simp only [Tasks.put]
    cases old : (RequestTask.mk epoch stage).holds <;>
      cases new : (RequestTask.mk epoch stage').holds <;>
      simp_all
    omega

theorem Sound.next (h : Sound s) (moved : Steps s action t) : Sound t := by
  cases moved with
  | accepts =>
    refine ⟨h.counted.add_idle _ rfl rfl, List.rel_append h.fits (.cons .reading .nil), ?_⟩
    have before := h.held
    simp only [List.countP_append, List.countP_singleton, RequestTask.holds, if_true]
    omega
  | turns _ _ move _ _ _ _ _ _ found turn =>
    rw [← heard_session s move] at found turn
    exact (h.heard move).put found turn
  | resumes => exact ⟨h.counted.resumed, h.fits, h.held⟩
  | announces => exact ⟨h.counted, h.notifyWaiters.fits, h.held⟩
  | holds =>
    refine ⟨h.counted, h.fits, ?_⟩
    have before := h.held
    simp only
    omega
  | letsGo =>
    refine ⟨h.counted, h.fits, ?_⟩
    have before := h.held
    simp only
    omega
  | detaches _ _ since => exact ⟨h.counted.detachedAt since, h.fits, h.held⟩

/-- A move that the program points offer is made: no call for it is refused. -/
theorem Sound.turns (h : Sound s) (may : enabled s (.request i move) = true) :
    ∃ t, step s (.request i move) = some t ∧ Steps s (.request i move) t := by
  have offer := may
  simp only [enabled] at offer
  split at offer
  · next p task point found =>
      obtain ⟨epoch, stage⟩ := task
      have fits := h.fits_at point found
      have countable : ∀ x, stage = .exchange x → x.guarded = true →
          (guardDrop s.session.attachment epoch x).isSome := by
        rintro x rfl guarded
        exact h.counted.guardDrop_isSome found guarded
      obtain ⟨a', p', stage', made, turn⟩ := fits.turns offer countable
      refine ⟨_, ?_, .turns i epoch move p p' stage stage' a' point found turn⟩
      simp [step, may, act, point, found, made]
  · cases offer

theorem Sound.steps (h : Sound s) (may : enabled s action = true) :
    ∃ t, step s action = some t ∧ Steps s action t := by
  cases action with
  | accept epoch => exact ⟨_, rfl, .accepts epoch⟩
  | request => exact h.turns may
  | resume => exact ⟨_, rfl, .resumes⟩
  | announce =>
    refine ⟨_, if_pos may, .announces ?_⟩
    simpa [enabled] using may
  | hold => exact ⟨_, rfl, .holds⟩
  | letGo =>
    refine ⟨_, if_pos may, .letsGo ?_⟩
    simpa [enabled] using may
  | detach epoch now =>
    by_cases current : s.session.attachment.epoch = epoch
    · exact ⟨_, by simp [step, enabled, act, current], .detaches epoch now (some now)⟩
    · exact ⟨_, by simp [step, enabled, act, current],
        .detaches epoch now s.session.attachment.detachedAt⟩

theorem enabled_of_step (moves : step s action = some t) : enabled s action = true := by
  unfold step at moves
  split_ifs at moves with may
  exact may

theorem Sound.of_step (h : Sound s) (moves : step s action = some t) :
    Steps s action t := by
  obtain ⟨t', made, steps⟩ := h.steps (enabled_of_step moves)
  cases moves.symm.trans made
  exact steps

theorem sound_of_reachable {id token : ℕ} (h : (machine id token).Reachable s) : Sound s := by
  refine Machine.Reachable.invariant (P := Sound) ?_ ?_ h
  · exact ⟨⟨rfl, rfl, rfl, fun _ mem => by cases mem⟩, .nil, rfl⟩
  · intro s action t sound moves
    exact sound.next (sound.of_step moves)

end Runs

end JackalopeFs.RequestTasks
