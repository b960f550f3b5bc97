import JackalopeFs.IndexedCells
import JackalopeFs.TransitionRuns

/-! # One session's attachment and the requests served on it

The server orders a session's changes with three counters kept beside the
attachment epoch.  This module embeds the functions of `SessionState` that read
and write them (`begin`, `abandon`, `fencing`, `drained`, `stopped`, the drop of
a `GuardExchange`, and what `resume` does to the attachment) and the machine that
calls them in any order, for any number of requests accepted at any epochs.

An assertion, an unreachable branch or an arithmetic underflow of the source is
a refused step here.  The reply stream, the tracing and the address of the peer
play no part in these functions and are not modelled; waking the waiters is a
result of the guard's drop, and since a held change may be looked at again at any
time, nothing depends on it here.
-/

namespace JackalopeFs.SessionExchange

open IndexedCells List TransitionRuns

inductive PhaseExchange where
  | held
  | ready
  | cancelled
  | superseded
  | dropped
  | running
  | abandoned
  | finished
  deriving DecidableEq, Repr

/-- The attachment a session's lock guards; `detachedAt` starts the grace period. -/
structure Attachment where
  epoch : ℕ
  detachedAt : Option ℕ
  running : ℕ
  abandoned : ℕ
  runningOlder : ℕ
  deriving DecidableEq, Repr

/-- One request from decoding to its end; `holder` is its hold on the session. -/
structure Exchange where
  ordered : Bool
  phase : PhaseExchange
  holder : Bool
  deriving DecidableEq, Repr

inductive Verdict where
  | unrun
  | fenced
  | finished
  | superseded
  deriving DecidableEq, Repr

namespace Exchange

def new (ordered : Bool) : Exchange :=
  ⟨ordered, .ready, true⟩

/-- `Exchange::end`: move to a terminal phase and let go of the session. -/
def endAs (x : Exchange) (last : PhaseExchange) : Exchange :=
  { x with phase := last, holder := false }

/-- The exchange has a `GuardExchange`: it was begun and the guard is not dropped yet. -/
def guarded (x : Exchange) : Bool :=
  x.phase = .running || x.phase = .abandoned

end Exchange

/-- How many changes a request just decoded waits for; it is held while there are any. -/
def fencing (a : Attachment) (epoch : ℕ) (x : Exchange) : Exchange × ℕ :=
  if x.ordered then
    let fence := if a.epoch = epoch then a.runningOlder + a.abandoned else 0
    (if 0 < fence then { x with phase := .held } else x, fence)
  else
    (x, 0)

/-- Begin an exchange; the flag says whether the caller gets a guard and runs it. -/
def begin (a : Attachment) (epoch : ℕ) (x : Exchange) : Option (Attachment × Exchange × Bool) :=
  if x.ordered then
    match x.phase with
    | .ready =>
      if a.epoch = epoch then
        some ({ a with running := a.running + 1 }, { x with phase := .running }, true)
      else
        some (a, x.endAs .superseded, false)
    | .cancelled => some (a, x, false)
    | _ => none
  else if x.phase = .ready then
    some (a, { x with phase := .running }, true)
  else
    none

def abandon (a : Attachment) (epoch : ℕ) (x : Exchange) :
    Option (Attachment × Exchange × Verdict) :=
  if x.ordered then
    match x.phase with
    | .held => some (a, x.endAs .cancelled, .unrun)
    | .ready => some (a, x.endAs .cancelled, .unrun)
    | .superseded => some (a, x, .superseded)
    | .running =>
      some (if a.epoch = epoch then { a with abandoned := a.abandoned + 1 } else a,
        { x with phase := .abandoned }, .fenced)
    | .finished => some (a, x, .finished)
    | .cancelled => none
    | .abandoned => none
    | .dropped => none
  else
    none

/-- Whether a held change goes on; `none` in the second component while it is still held. -/
def drained (a : Attachment) (epoch : ℕ) (x : Exchange) : Option (Exchange × Option Bool) :=
  if x.phase = .held then
    if a.epoch ≠ epoch then
      some (x.endAs .superseded, some false)
    else if a.runningOlder + a.abandoned = 0 then
      some ({ x with phase := .ready }, some true)
    else
      some (x, none)
  else
    none

def stopped (x : Exchange) : Option Exchange :=
  if x.phase = .held then some (x.endAs .dropped) else none

/-- The drop of a `GuardExchange` taken at `epoch`; the flag says whether waiters are woken. -/
def guardDrop (a : Attachment) (epoch : ℕ) (x : Exchange) :
    Option (Attachment × Exchange × Bool) :=
  if x.ordered then
    let abandoned := x.phase = .abandoned
    if a.epoch = epoch then
      if a.running = 0 ∨ (abandoned ∧ a.abandoned = 0) then
        none
      else if abandoned then
        some ({ a with running := a.running - 1, abandoned := a.abandoned - 1 },
          x.endAs .finished, a.abandoned - 1 = 0)
      else
        some ({ a with running := a.running - 1 }, x.endAs .finished, false)
    else if a.runningOlder = 0 then
      none
    else
      some ({ a with runningOlder := a.runningOlder - 1 }, x.endAs .finished,
        a.runningOlder - 1 = 0)
  else
    some (a, x.endAs .finished, false)

/-- What `Sessions::resume` does to the attachment of the session it reattaches. -/
def Attachment.resumed (a : Attachment) : Attachment :=
  { a with
    epoch := a.epoch + 1
    detachedAt := none
    runningOlder := a.runningOlder + a.running
    running := 0
    abandoned := 0 }

/-- Where the task of one accepted request stream is. -/
inductive Stage where
  | accepted
  | undecoded
  | exchange (x : Exchange)
  deriving DecidableEq, Repr

/-- The task of one request stream, accepted on the connection attached at `epoch`. -/
structure RequestTask where
  epoch : ℕ
  stage : Stage
  deriving DecidableEq, Repr

namespace RequestTask

/-- An ordered exchange that has begun and has not finished. -/
def underWay (task : RequestTask) : Bool :=
  match task.stage with
  | .exchange x => x.ordered && x.guarded
  | _ => false

def abandonedNow (task : RequestTask) : Bool :=
  match task.stage with
  | .exchange x => x.ordered && x.phase = .abandoned
  | _ => false

theorem underWay_of_abandonedNow {task : RequestTask} (h : task.abandonedNow = true) :
    task.underWay = true := by
  obtain ⟨epoch, stage⟩ := task
  cases stage <;> simp_all [abandonedNow, underWay, Exchange.guarded]

def holds (task : RequestTask) : Bool :=
  match task.stage with
  | .accepted => true
  | .undecoded => false
  | .exchange x => x.holder

@[simp] theorem holds_exchange (epoch : ℕ) (x : Exchange) :
    (RequestTask.mk epoch (.exchange x)).holds = x.holder := rfl

end RequestTask

structure SessionState where
  id : ℕ
  resumeToken : ℕ
  attachment : Attachment
  holders : ℕ
  requests : List RequestTask
  deriving DecidableEq, Repr

namespace SessionState

def new (id token : ℕ) : SessionState :=
  ⟨id, token, ⟨1, none, 0, 0, 0⟩, 0, []⟩

/-- Store what a function of the session made of request `i`; an exchange that ends drops its
holder. -/
def write (s : SessionState) (i : ℕ) (task : RequestTask) (x : Exchange) (a' : Attachment)
    (x' : Exchange) : SessionState :=
  { s with
    attachment := a'
    holders := if x.holder && !x'.holder then s.holders - 1 else s.holders
    requests := s.requests.set i { task with stage := .exchange x' } }

def move (s : SessionState) (i : ℕ)
    (f : Attachment → ℕ → Exchange → Option (Attachment × Exchange)) : Option SessionState :=
  match s.requests[i]? with
  | none => none
  | some task =>
    match task.stage with
    | .exchange x => (f s.attachment task.epoch x).map fun r => s.write i task x r.1 r.2
    | _ => none

end SessionState

/-- The functions of the source that move one request on, each named like the action. -/
inductive RequestAction where
  | undecoded (i : ℕ)
  | decode (i : ℕ) (ordered : Bool)
  | begin (i : ℕ)
  | abandon (i : ℕ)
  | drained (i : ℕ)
  | stopped (i : ℕ)
  | finish (i : ℕ)
  deriving DecidableEq, Repr

/-- One call made for a request of the session.  A stream that ends before its request is decoded
(`undecoded`) drops the hold it was accepted with; decoding makes the exchange and fences it. -/
def requestStep (s : SessionState) : RequestAction → Option SessionState
  | .undecoded i =>
    match s.requests[i]? with
    | some ⟨epoch, .accepted⟩ =>
      some { s with
        holders := s.holders - 1
        requests := s.requests.set i ⟨epoch, .undecoded⟩ }
    | _ => none
  | .decode i ordered =>
    match s.requests[i]? with
    | some ⟨epoch, .accepted⟩ =>
      some { s with
        requests := s.requests.set i
          ⟨epoch, .exchange (fencing s.attachment epoch (.new ordered)).1⟩ }
    | _ => none
  | .begin i => s.move i fun a epoch x => (begin a epoch x).map fun r => (r.1, r.2.1)
  | .abandon i => s.move i fun a epoch x => (abandon a epoch x).map fun r => (r.1, r.2.1)
  | .drained i => s.move i fun a epoch x => (drained a epoch x).map fun r => (a, r.1)
  | .stopped i => s.move i fun a _ x => (stopped x).map fun x' => (a, x')
  | .finish i =>
    s.move i fun a epoch x =>
      if x.guarded then (guardDrop a epoch x).map fun r => (r.1, r.2.1) else none

/-- What can happen to one session.  A connection takes the session up with `hold`, drops that hold
with `letGo` and starts the grace period with `detach`. -/
inductive Action where
  | accept (epoch : ℕ)
  | request (action : RequestAction)
  | resume
  | hold
  | letGo
  | detach (epoch now : ℕ)
  deriving DecidableEq, Repr

def step (s : SessionState) : Action → Option SessionState
  | .accept epoch =>
    some { s with holders := s.holders + 1, requests := s.requests ++ [⟨epoch, .accepted⟩] }
  | .request action => requestStep s action
  | .resume => some { s with attachment := s.attachment.resumed }
  | .hold => some { s with holders := s.holders + 1 }
  | .letGo => some { s with holders := s.holders - 1 }
  | .detach epoch now =>
    some (if s.attachment.epoch = epoch then
      { s with attachment := { s.attachment with detachedAt := some now } } else s)

def machine (id token : ℕ) : Machine SessionState Action :=
  ⟨.new id token, step⟩

/-- Everything that one call can do to an exchange and to the counts beside it. -/
inductive Moves (a : Attachment) (epoch : ℕ) (x : Exchange) : Attachment → Exchange → Prop where
  | stays : Moves a epoch x a x
  | starts (ordered : x.ordered = true) (ready : x.phase = .ready) (current : a.epoch = epoch) :
      Moves a epoch x { a with running := a.running + 1 } { x with phase := .running }
  | startsUnordered (unordered : x.ordered = false) (ready : x.phase = .ready) :
      Moves a epoch x a { x with phase := .running }
  | drains (held : x.phase = .held) (current : a.epoch = epoch)
      (clear : a.runningOlder + a.abandoned = 0) : Moves a epoch x a { x with phase := .ready }
  | abandonsCurrent (ordered : x.ordered = true) (running : x.phase = .running)
      (current : a.epoch = epoch) :
      Moves a epoch x { a with abandoned := a.abandoned + 1 } { x with phase := .abandoned }
  | abandonsOlder (ordered : x.ordered = true) (running : x.phase = .running)
      (stale : a.epoch ≠ epoch) : Moves a epoch x a { x with phase := .abandoned }
  | endsUnbegun (last : PhaseExchange) (unbegun : x.phase = .held ∨ x.phase = .ready)
      (terminal : last = .cancelled ∨ (last = .superseded ∧ a.epoch ≠ epoch) ∨ last = .dropped) :
      Moves a epoch x a (x.endAs last)
  | finishesUnordered (unordered : x.ordered = false) (guarded : x.guarded = true) :
      Moves a epoch x a (x.endAs .finished)
  | finishesCurrent (ordered : x.ordered = true) (running : x.phase = .running)
      (current : a.epoch = epoch) (positive : 0 < a.running) :
      Moves a epoch x { a with running := a.running - 1 } (x.endAs .finished)
  | finishesAbandoned (ordered : x.ordered = true) (abandoned : x.phase = .abandoned)
      (current : a.epoch = epoch) (positive : 0 < a.running) (fenced : 0 < a.abandoned) :
      Moves a epoch x { a with running := a.running - 1, abandoned := a.abandoned - 1 }
        (x.endAs .finished)
  | finishesOlder (ordered : x.ordered = true) (guarded : x.guarded = true)
      (stale : a.epoch ≠ epoch) (positive : 0 < a.runningOlder) :
      Moves a epoch x { a with runningOlder := a.runningOlder - 1 } (x.endAs .finished)

section Specifications

variable {a a' : Attachment} {epoch : ℕ} {x x' : Exchange}

theorem fencing_new (ordered : Bool) :
    (fencing a epoch (.new ordered)).1 =
      ⟨ordered, if ordered ∧ a.epoch = epoch ∧ 0 < a.runningOlder + a.abandoned then .held
        else .ready, true⟩ := by
  by_cases current : a.epoch = epoch <;> by_cases fence : 0 < a.runningOlder + a.abandoned <;>
    cases ordered <;> simp [fencing, Exchange.new, current, fence]

theorem fencing_unbegun (ordered : Bool) :
    (fencing a epoch (.new ordered)).1.phase = .held ∨
      (fencing a epoch (.new ordered)).1.phase = .ready := by
  rw [fencing_new]
  split_ifs
  · exact .inl rfl
  · exact .inr rfl

theorem begin_moves {run : Bool} (h : begin a epoch x = some (a', x', run)) :
    Moves a epoch x a' x' := by
  obtain ⟨ordered, phase, holder⟩ := x
  cases ordered <;> cases phase <;>
    simp only [begin, if_true, if_false, Bool.false_eq_true, reduceCtorEq] at h
  case false.ready =>
    cases h
    exact .startsUnordered rfl rfl
  case true.ready =>
    split_ifs at h with current
    · cases h
      exact .starts rfl rfl current
    · cases h
      exact .endsUnbegun _ (.inr rfl) (.inr (.inl ⟨rfl, current⟩))
  case true.cancelled =>
    cases h
    exact .stays

theorem abandon_moves {verdict : Verdict} (h : abandon a epoch x = some (a', x', verdict)) :
    Moves a epoch x a' x' := by
  obtain ⟨ordered, phase, holder⟩ := x
  cases ordered <;> cases phase <;>
    simp only [abandon, if_true, if_false, Bool.false_eq_true, reduceCtorEq] at h
  case true.held =>
    cases h
    exact .endsUnbegun _ (.inl rfl) (.inl rfl)
  case true.ready =>
    cases h
    exact .endsUnbegun _ (.inr rfl) (.inl rfl)
  case true.running =>
    split_ifs at h with current
    · cases h
      exact .abandonsCurrent rfl rfl current
    · cases h
      exact .abandonsOlder rfl rfl current
  case true.superseded | true.finished =>
    cases h
    exact .stays

theorem drained_moves {on : Option Bool} (h : drained a epoch x = some (x', on)) :
    Moves a epoch x a x' := by
  unfold drained at h
  split_ifs at h with held stale clear
  · cases h
    exact .endsUnbegun _ (.inl held) (.inr (.inl ⟨rfl, stale⟩))
  · cases h
    exact .drains held (not_not.mp stale) clear
  · cases h
    exact .stays

theorem stopped_moves (h : stopped x = some x') : Moves a epoch x a x' := by
  unfold stopped at h
  split_ifs at h with held
  cases h
  exact .endsUnbegun _ (.inl held) (.inr (.inr rfl))

theorem guardDrop_moves {wakes : Bool} (guarded : x.guarded = true)
    (h : guardDrop a epoch x = some (a', x', wakes)) : Moves a epoch x a' x' := by
  simp only [guardDrop] at h
  split_ifs at h with ordered current none abandoned none
  · cases h
    simp only [abandoned, true_and, not_or] at none
    exact .finishesAbandoned ordered abandoned current (by omega) (by omega)
  · cases h
    have running : x.phase = .running := by simpa [Exchange.guarded, abandoned] using guarded
    exact .finishesCurrent ordered running current (by omega)
  · cases h
    exact .finishesOlder ordered guarded current (by omega)
  · cases h
    exact .finishesUnordered (by simpa using ordered) guarded

end Specifications

/-- The counts beside the attachment say exactly what of the session's changes is under way. -/
structure Counted (a : Attachment) (tasks : List RequestTask) : Prop where
  running : a.running = tasks.countP fun t => t.underWay && t.epoch = a.epoch
  abandoned : a.abandoned = tasks.countP fun t => t.abandonedNow && t.epoch = a.epoch
  runningOlder : a.runningOlder = tasks.countP fun t => t.underWay && t.epoch < a.epoch
  bounded : ∀ t ∈ tasks, t.underWay → t.epoch ≤ a.epoch

namespace Counted

variable {a a' : Attachment} {tasks : List RequestTask} {i epoch : ℕ} {x x' : Exchange}

section

variable (h : Counted a tasks)

include h

theorem add_idle (task : RequestTask) (idle : task.underWay = false)
    (calm : task.abandonedNow = false) : Counted a (tasks ++ [task]) where
  running := by simp [idle, h.running]
  abandoned := by simp [calm, h.abandoned]
  runningOlder := by simp [idle, h.runningOlder]
  bounded := by
    intro t ht busy
    rcases mem_append.mp ht with ht | ht
    · exact h.bounded t ht busy
    · rw [mem_singleton.mp ht, idle] at busy
      cases busy

/-- A write to a task, with the counts changed by what the old and new task contribute. -/
theorem write {old new : RequestTask} (found : tasks[i]? = some old)
    (sameEpoch : new.epoch = old.epoch) (attached : a'.epoch = a.epoch)
    (current : new.underWay → new.epoch ≤ a.epoch)
    (running : a'.running + (if old.underWay && old.epoch = a.epoch then 1 else 0) =
      a.running + (if new.underWay && old.epoch = a.epoch then 1 else 0))
    (abandoned : a'.abandoned + (if old.abandonedNow && old.epoch = a.epoch then 1 else 0) =
      a.abandoned + (if new.abandonedNow && old.epoch = a.epoch then 1 else 0))
    (runningOlder : a'.runningOlder + (if old.underWay && old.epoch < a.epoch then 1 else 0) =
      a.runningOlder + (if new.underWay && old.epoch < a.epoch then 1 else 0)) :
    Counted a' (tasks.set i new) where
  running := by
    have hc := countP_write (fun t => t.underWay && t.epoch = a.epoch) new found
    rw [sameEpoch] at hc
    rw [attached]
    have := h.running
    omega
  abandoned := by
    have hc := countP_write (fun t => t.abandonedNow && t.epoch = a.epoch) new found
    rw [sameEpoch] at hc
    rw [attached]
    have := h.abandoned
    omega
  runningOlder := by
    have hc := countP_write (fun t => t.underWay && t.epoch < a.epoch) new found
    rw [sameEpoch] at hc
    rw [attached]
    have := h.runningOlder
    omega
  bounded := by
    intro t ht busy
    rw [attached]
    rcases mem_or_eq_of_mem_set ht with ht | rfl
    · exact h.bounded t ht busy
    · exact current busy

/-- An exchange that is not under way and stays so leaves the counts as they are. -/
theorem write_idle {old new : RequestTask} (found : tasks[i]? = some old)
    (sameEpoch : new.epoch = old.epoch) (wasIdle : old.underWay = false)
    (idle : new.underWay = false) (wasCalm : old.abandonedNow = false)
    (calm : new.abandonedNow = false) : Counted a (tasks.set i new) :=
  h.write found sameEpoch rfl (by simp [idle]) (by simp [wasIdle, idle])
    (by simp [wasCalm, calm]) (by simp [wasIdle, idle])

theorem move (found : tasks[i]? = some ⟨epoch, .exchange x⟩)
    (m : Moves a epoch x a' x') : Counted a' (tasks.set i ⟨epoch, .exchange x'⟩) := by
  have bound := h.bounded _ (mem_of_getElem? found)
  simp only [RequestTask.underWay, Exchange.guarded] at bound
  cases m with
  | stays => exact h.write found rfl rfl bound rfl rfl rfl
  | starts ordered ready current =>
    refine h.write found rfl rfl (fun _ => Nat.le_of_eq current.symm) ?_ ?_ ?_ <;>
      simp [RequestTask.underWay, RequestTask.abandonedNow, Exchange.guarded, ordered, ready,
        current]
  | startsUnordered unordered =>
    refine h.write_idle found rfl ?_ ?_ ?_ ?_ <;>
      simp [RequestTask.underWay, RequestTask.abandonedNow, unordered]
  | drains held =>
    refine h.write_idle found rfl ?_ ?_ ?_ ?_ <;>
      simp [RequestTask.underWay, RequestTask.abandonedNow, Exchange.guarded, held]
  | abandonsCurrent ordered running current =>
    refine h.write found rfl rfl (fun _ => Nat.le_of_eq current.symm) ?_ ?_ ?_ <;>
      simp [RequestTask.underWay, RequestTask.abandonedNow, Exchange.guarded, ordered, running,
        current]
  | abandonsOlder ordered running stale =>
    refine h.write found rfl rfl (fun _ => bound (by simp [ordered, running])) ?_ ?_ ?_ <;>
      simp [RequestTask.underWay, RequestTask.abandonedNow, Exchange.guarded, ordered, running,
        Ne.symm stale]
  | endsUnbegun _ unbegun terminal =>
    refine h.write_idle found rfl ?_ ?_ ?_ ?_
    · rcases unbegun with hp | hp <;> simp [RequestTask.underWay, Exchange.guarded, hp]
    · rcases terminal with rfl | ⟨rfl, _⟩ | rfl <;>
        simp [RequestTask.underWay, Exchange.guarded, Exchange.endAs]
    · rcases unbegun with hp | hp <;> simp [RequestTask.abandonedNow, hp]
    · rcases terminal with rfl | ⟨rfl, _⟩ | rfl <;>
        simp [RequestTask.abandonedNow, Exchange.endAs]
  | finishesUnordered unordered =>
    refine h.write_idle found rfl ?_ ?_ ?_ ?_ <;>
      simp [RequestTask.underWay, RequestTask.abandonedNow, Exchange.endAs, unordered]
  | finishesCurrent ordered running current =>
    refine h.write found rfl rfl (by simp [RequestTask.underWay, Exchange.guarded,
      Exchange.endAs]) ?_ ?_ ?_ <;>
      simp [RequestTask.underWay, RequestTask.abandonedNow, Exchange.guarded, Exchange.endAs,
        ordered, running, current]
    omega
  | finishesAbandoned ordered abandoned current =>
    refine h.write found rfl rfl (by simp [RequestTask.underWay, Exchange.guarded,
      Exchange.endAs]) ?_ ?_ ?_ <;>
      simp [RequestTask.underWay, RequestTask.abandonedNow, Exchange.guarded, Exchange.endAs,
        ordered, abandoned, current]
    · omega
    · omega
  | finishesOlder ordered guarded stale =>
    have older : epoch < a.epoch := by
      have := bound (by simpa [ordered, Exchange.guarded] using guarded)
      omega
    refine h.write found rfl rfl (by simp [RequestTask.underWay, Exchange.guarded,
      Exchange.endAs]) ?_ ?_ ?_ <;>
      simp [RequestTask.underWay, RequestTask.abandonedNow, Exchange.guarded, Exchange.endAs,
        ordered, older, Ne.symm stale]
    have := by simpa [Exchange.guarded] using guarded
    simp only [this, if_true]
    omega

/-- A new attachment: whatever ran at the old epoch now runs from an earlier connection. -/
theorem resumed : Counted a.resumed tasks where
  running := by
    refine (countP_eq_zero.mpr fun t ht counted => ?_).symm
    obtain ⟨busy, here⟩ := Bool.and_eq_true_iff.mp counted
    have current : t.epoch = a.epoch + 1 := of_decide_eq_true here
    have := h.bounded t ht busy
    omega
  abandoned := by
    refine (countP_eq_zero.mpr fun t ht counted => ?_).symm
    obtain ⟨given, here⟩ := Bool.and_eq_true_iff.mp counted
    have current : t.epoch = a.epoch + 1 := of_decide_eq_true here
    have := h.bounded t ht (RequestTask.underWay_of_abandonedNow given)
    omega
  runningOlder := by
    simp only [Attachment.resumed]
    rw [h.runningOlder, h.running]
    refine (countP_eq_add ?_ ?_).symm
    · intro t _
      rw [← Bool.and_or_distrib_left, ← Bool.decide_or]
      simp only [Nat.lt_succ_iff_lt_or_eq]
    · intro t _ older current
      simp only [Bool.and_eq_true, decide_eq_true_eq] at older current
      omega
  bounded := fun t ht busy => Nat.le_succ_of_le (h.bounded t ht busy)

/-- A change that was begun can finish: the counter it is taken from is positive. -/
theorem guardDrop_isSome (found : tasks[i]? = some ⟨epoch, .exchange x⟩)
    (guarded : x.guarded = true) : (guardDrop a epoch x).isSome := by
  have mem := mem_of_getElem? found
  have bound := h.bounded _ mem
  simp only [guardDrop]
  split_ifs with ordered current zero abandoned zero <;> try rfl
  · exfalso
    have busy : 0 < a.running := by
      rw [h.running]
      refine countP_pos_iff.mpr ⟨_, mem, ?_⟩
      simp [RequestTask.underWay, ordered, guarded, current]
    rcases zero with zero | ⟨abandoned, zero⟩
    · omega
    · have fenced : 0 < a.abandoned := by
        rw [h.abandoned]
        refine countP_pos_iff.mpr ⟨_, mem, ?_⟩
        simp [RequestTask.abandonedNow, ordered, abandoned, current]
      omega
  · exfalso
    have older : epoch < a.epoch := by
      have := bound (by simp [RequestTask.underWay, ordered, guarded])
      simp only at this
      omega
    have busy : 0 < a.runningOlder := by
      rw [h.runningOlder]
      refine countP_pos_iff.mpr ⟨_, mem, ?_⟩
      simp [RequestTask.underWay, ordered, guarded, older]
    omega

theorem zero_of_idle (idle : ∀ t ∈ tasks, t.underWay = false) :
    a.running = 0 ∧ a.abandoned = 0 ∧ a.runningOlder = 0 := by
  refine ⟨?_, ?_, ?_⟩
  · rw [h.running]
    exact countP_eq_zero.mpr fun t ht => by simp [idle t ht]
  · rw [h.abandoned]
    refine countP_eq_zero.mpr fun t ht counted => ?_
    simp only [Bool.and_eq_true] at counted
    have := RequestTask.underWay_of_abandonedNow counted.1
    simp [idle t ht] at this
  · rw [h.runningOlder]
    exact countP_eq_zero.mpr fun t ht => by simp [idle t ht]

end

end Counted

namespace SessionState

theorem of_move {s t : SessionState} {i : ℕ}
    {f : Attachment → ℕ → Exchange → Option (Attachment × Exchange)} (h : s.move i f = some t) :
    ∃ epoch x a' x', s.requests[i]? = some ⟨epoch, .exchange x⟩ ∧
      f s.attachment epoch x = some (a', x') ∧
      t = s.write i ⟨epoch, .exchange x⟩ x a' x' := by
  unfold move at h
  split at h
  · cases h
  · rename_i task found
    obtain ⟨epoch, stage⟩ := task
    cases stage with
    | accepted => cases h
    | undecoded => cases h
    | exchange x =>
      obtain ⟨⟨a', x'⟩, hf, rfl⟩ := Option.map_eq_some_iff.mp h
      exact ⟨epoch, x, a', x', found, hf, rfl⟩

end SessionState

/-- Everything that a call made for a request can do to its session. -/
inductive RequestSteps (s : SessionState) : SessionState → Prop where
  | undecodes (i epoch : ℕ) (found : s.requests[i]? = some ⟨epoch, .accepted⟩) :
      RequestSteps s { s with
        holders := s.holders - 1
        requests := s.requests.set i ⟨epoch, .undecoded⟩ }
  | decodes (i epoch : ℕ) (ordered : Bool) (found : s.requests[i]? = some ⟨epoch, .accepted⟩) :
      RequestSteps s { s with
        requests := s.requests.set i
          ⟨epoch, .exchange (fencing s.attachment epoch (.new ordered)).1⟩ }
  | moves (i epoch : ℕ) (x : Exchange) (a' : Attachment) (x' : Exchange)
      (found : s.requests[i]? = some ⟨epoch, .exchange x⟩)
      (move : Moves s.attachment epoch x a' x') :
      RequestSteps s (s.write i ⟨epoch, .exchange x⟩ x a' x')

variable {s t : SessionState}

theorem requestStep_steps {action : RequestAction} (h : requestStep s action = some t) :
    RequestSteps s t := by
  cases action with
  | undecoded i =>
    simp only [requestStep] at h
    split at h <;> cases h
    exact .undecodes i _ (by assumption)
  | decode i ordered =>
    simp only [requestStep] at h
    split at h <;> cases h
    exact .decodes i _ ordered (by assumption)
  | begin i =>
    simp only [requestStep] at h
    obtain ⟨epoch, x, a', x', found, hf, rfl⟩ := SessionState.of_move h
    obtain ⟨⟨_, _, run⟩, hb, he⟩ := Option.map_eq_some_iff.mp hf
    cases he
    exact .moves i epoch x _ _ found (begin_moves hb)
  | abandon i =>
    simp only [requestStep] at h
    obtain ⟨epoch, x, a', x', found, hf, rfl⟩ := SessionState.of_move h
    obtain ⟨⟨_, _, verdict⟩, hb, he⟩ := Option.map_eq_some_iff.mp hf
    cases he
    exact .moves i epoch x _ _ found (abandon_moves hb)
  | drained i =>
    simp only [requestStep] at h
    obtain ⟨epoch, x, a', x', found, hf, rfl⟩ := SessionState.of_move h
    obtain ⟨⟨_, on⟩, hb, he⟩ := Option.map_eq_some_iff.mp hf
    cases he
    exact .moves i epoch x _ _ found (drained_moves hb)
  | stopped i =>
    simp only [requestStep] at h
    obtain ⟨epoch, x, a', x', found, hf, rfl⟩ := SessionState.of_move h
    obtain ⟨_, hb, he⟩ := Option.map_eq_some_iff.mp hf
    cases he
    exact .moves i epoch x _ _ found (stopped_moves hb)
  | finish i =>
    simp only [requestStep] at h
    obtain ⟨epoch, x, a', x', found, hf, rfl⟩ := SessionState.of_move h
    split_ifs at hf with guarded
    obtain ⟨⟨_, _, wakes⟩, hb, he⟩ := Option.map_eq_some_iff.mp hf
    cases he
    exact .moves i epoch x _ _ found (guardDrop_moves guarded hb)

theorem Counted.request (h : Counted s.attachment s.requests) (moved : RequestSteps s t) :
    Counted t.attachment t.requests := by
  cases moved with
  | undecodes _ _ found => exact h.write_idle found rfl rfl rfl rfl rfl
  | decodes _ epoch ordered found =>
    have unbegun := @fencing_unbegun s.attachment epoch ordered
    refine h.write_idle found rfl rfl ?_ rfl ?_ <;>
      rcases unbegun with hp | hp <;>
      simp [RequestTask.underWay, RequestTask.abandonedNow, Exchange.guarded, hp]
  | moves _ _ _ _ _ found move => exact h.move found move

theorem Counted.detachedAt {a : Attachment} {tasks : List RequestTask} (h : Counted a tasks)
    (since : Option ℕ) : Counted { a with detachedAt := since } tasks :=
  ⟨h.running, h.abandoned, h.runningOlder, h.bounded⟩

theorem Counted.step {action : Action} (h : Counted s.attachment s.requests)
    (moves : step s action = some t) :
    Counted t.attachment t.requests := by
  cases action with
  | accept =>
    cases moves
    exact h.add_idle _ rfl rfl
  | request => exact h.request (requestStep_steps moves)
  | resume =>
    cases moves
    exact h.resumed
  | hold | letGo =>
    cases moves
    exact h
  | detach =>
    cases moves
    split_ifs
    · exact h.detachedAt _
    · exact h

theorem counted_of_reachable {id token : ℕ} {s : SessionState}
    (h : (machine id token).Reachable s) : Counted s.attachment s.requests := by
  refine Machine.Reachable.invariant (P := fun s => Counted s.attachment s.requests) ?_ ?_ h
  · exact ⟨rfl, rfl, rfl, by simp [machine, SessionState.new]⟩
  · intro s action t hs moves
    exact hs.step moves

/-- The counts of an attachment are exact in every state of every run: `running` and `abandoned`
count the changes begun at the current epoch and not finished, `runningOlder` those begun at
earlier ones.  The guard of a begun exchange can always be dropped, so no decrement underflows, and
the counts are zero when no change is under way. -/
theorem attachment_counts_exact {id token : ℕ} {s : SessionState}
    (h : (machine id token).Reachable s) :
    s.attachment.running =
        s.requests.countP (fun t => t.underWay && t.epoch = s.attachment.epoch) ∧
      s.attachment.abandoned =
        s.requests.countP (fun t => t.abandonedNow && t.epoch = s.attachment.epoch) ∧
      s.attachment.runningOlder =
        s.requests.countP (fun t => t.underWay && t.epoch < s.attachment.epoch) ∧
      (∀ i epoch x, s.requests[i]? = some ⟨epoch, .exchange x⟩ → x.guarded →
        (step s (.request (.finish i))).isSome) ∧
      ((∀ t ∈ s.requests, t.underWay = false) →
        s.attachment.running = 0 ∧ s.attachment.abandoned = 0 ∧ s.attachment.runningOlder = 0) := by
  have counted := counted_of_reachable h
  refine ⟨counted.running, counted.abandoned, counted.runningOlder, ?_, counted.zero_of_idle⟩
  intro i epoch x found guarded
  have some_drop := counted.guardDrop_isSome found guarded
  simp [step, requestStep, SessionState.move, found, guarded, some_drop]

/-- Two changes run at the first epoch, one of them given up on, when the session resumes and a
third is held behind them. -/
def takeoverRun : List Action :=
  [.accept 1, .request (.decode 0 true), .request (.begin 0), .accept 1,
    .request (.decode 1 true), .request (.begin 1), .request (.abandon 1), .resume,
    .accept 2, .request (.decode 2 true), .request (.finish 0)]

theorem attachment_counts_exact_takeover :
    ∃ s, (machine 1 7).run takeoverRun = some s ∧ s.attachment.runningOlder = 1 ∧
      s.attachment.runningOlder =
        s.requests.countP (fun t => t.underWay && t.epoch < s.attachment.epoch) := by
  refine ⟨_, rfl, rfl, ?_⟩
  have reached := Machine.reachable_of_run (rfl : (machine 1 7).run takeoverRun = some _)
  exact (attachment_counts_exact reached).2.2.1

end JackalopeFs.SessionExchange
