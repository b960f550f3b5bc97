import JackalopeFs.ChangeOrder

/-! # How often a call begins at the server, and in which order

What the invariants of the client and the server together say of calls: a change that
is called after another has ended never overtakes it, and the requests of one call begin
at the server at most twice.
-/

namespace JackalopeFs.CallOrder

open ChangeOrder ClientCalls ClientConnections ClientMachine ClientTasks FinishedExchanges
open IndexedCells Protocol ProtocolLinks ServedExchanges SessionExchange TransitionRuns WireRequests

variable {s t : System} {x y : ℕ} {e d : Sent} {action : Protocol.Action}

/-- The request of exchange `x` has begun at the server. -/
def hasBegun (s : System) (x : ℕ) : Bool :=
  (s.client.sent[x]?).any (begun s x)

/-- The request of exchange `x` has begun at the server and has not finished. -/
def isRunning (s : System) (x : ℕ) : Bool :=
  (s.client.sent[x]?).any (s.runs x)

/-- The exchanges of call `i` whose requests have begun. -/
def begunOf (s : System) (i : ℕ) : List ℕ :=
  (List.range s.client.sent.length).filter fun x =>
    (s.client.sent[x]?).any fun e => e.origin == .call i && begun s x e

theorem hasBegun_eq (found : s.client.sent[x]? = some e) : hasBegun s x = begun s x e := by
  simp [hasBegun, found]

theorem hasBegun_carried (linked : Linked s) (moved : Steps s action t)
    (found : s.client.sent[x]? = some e) (h : hasBegun t x = true) :
    ∃ e', Carries s t e e' ∧ begun t x e' = true := by
  obtain ⟨e', there, carries⟩ := exchange_carries linked moved found
  rw [hasBegun_eq there] at h
  exact ⟨e', carries, h⟩

theorem done_of_begins (joint : Joint s) (moved : Steps s action t) (follows : Follows s x y e d)
    (begins : hasBegun t y = true) : Done s x e := by
  obtain ⟨d', carries, begins⟩ := hasBegun_carried joint.linked moved follows.later begins
  exact joint.ordered.done x y e d follows
    (begun_before joint.linked joint.tasked moved follows.later carries follows.changes begins)

theorem unbegun_of_done (joint : Joint s) (moved : Steps s action t)
    (found : s.client.sent[x]? = some e) (ordered : e.req.changes = true) (done : Done s x e)
    (unbegun : hasBegun s x = false) : hasBegun t x = false := by
  by_contra begins
  obtain ⟨e', carries, begins⟩ := hasBegun_carried joint.linked moved found (by simpa using begins)
  rcases begun_before joint.linked joint.tasked moved found carries ordered begins with
    already | ⟨epoch, z, known, ready, current⟩
  · rw [hasBegun_eq found, already] at unbegun
    cases unbegun
  · exact done.not_ready joint.tasked found known ready current

/-- If the call of change `b` started after the call of change `a` had ended, no request of `b` begins
while one of `a` runs, and none of `a` begins once one of `b` has. -/
theorem changes_keep_order {capacity : ℕ} (h : (Protocol.machine capacity).Reachable s)
    (moves : (Protocol.machine capacity).step s action = some t) {a b : ℕ} {first second : Call}
    (foundA : s.client.calls[a]? = some first) (foundB : s.client.calls[b]? = some second)
    (orderedA : first.req.changes = true) (orderedB : second.req.changes = true)
    (after : a ∈ second.endedBefore) (foundX : s.client.sent[x]? = some e)
    (ofA : e.origin = .call a) (foundY : s.client.sent[y]? = some d) (ofB : d.origin = .call b) :
    (hasBegun s y = false → hasBegun t y = true → isRunning s x = false) ∧
      (hasBegun s y = true → hasBegun s x = false → hasBegun t x = false) := by
  have joint := joint_of_reachable h
  have moved := ProtocolLinks.step_steps moves
  have called := joint.linked.called
  have change : e.req.changes = true := by
    rw [(called.attempts a first foundA).req x e ⟨foundX, ofA⟩]
    exact orderedA
  have follows : Follows s x y e d := by
    refine ⟨foundX, foundY, called.follows b a second x y e d foundB after foundY ofB foundX ofA,
      by simp [ofB], change, ?_⟩
    rw [(called.attempts b second foundB).req y d ⟨foundY, ofB⟩]
    exact orderedB
  constructor
  · intro _ begins
    have done := done_of_begins joint moved follows begins
    simp [isRunning, foundX, done.not_runs joint.tasked foundX change]
  · intro begun unbegun
    rw [hasBegun_eq foundY] at begun
    have done := joint.ordered.done x y e d follows (Or.inl begun)
    exact unbegun_of_done joint moved foundX change done unbegun

/-- A first connection, up to where calls may go out on it. -/
def connectRun : List Protocol.Action :=
  [.dial, .hello 0, .create 0 7 1 [], .server (.ack 0), .connected false, .client .root,
    .client .moot, .client .fixRound, .client .publish, .server (.register 0), .server (.attach 0)]

/-- Call `i` goes out as exchange `x`, and the server decodes it. -/
def sendRun (i x : ℕ) : List Protocol.Action :=
  [.client (.check i), .client (.take i), .client (.ready i), .client (.write x), .accept x,
    .serve x .decode]

/-- A directory is made, and a rename that was called after that is about to begin. -/
def mkdirRenameRun : List Protocol.Action :=
  connectRun ++ .client (.call .mkdir) :: sendRun 0 0 ++
    [.serve 0 .begin, .work 0 (.runs .ok), .serve 0 .finish, .deliver 0 true,
      .client (.ends 0 (.replied .ok)), .client (.call .rename)] ++ sendRun 1 1

theorem changes_keep_order_rename :
    ∃ s t, (Protocol.machine 4).run mkdirRenameRun = some s ∧
      (Protocol.machine 4).step s (.serve 1 .begin) = some t ∧ hasBegun t 1 = true ∧
      isRunning s 0 = false := by
  obtain ⟨s, run, reached, holds⟩ := (Protocol.machine 4).exists_of_run
    (p := fun s : System =>
      ((s.client.calls[0]?).any fun c => c.req.changes) &&
        ((s.client.calls[1]?).any fun c => c.req.changes && c.endedBefore.contains 0) &&
        ((s.client.sent[0]?).any fun e => e.origin == .call 0) &&
        ((s.client.sent[1]?).any fun d => d.origin == .call 1) && !hasBegun s 1 &&
        ((Protocol.machine 4).step s (.serve 1 .begin)).any fun t => hasBegun t 1)
    (by decide +kernel : ((Protocol.machine 4).run mkdirRenameRun).any _ = true)
  simp only [Bool.and_eq_true, Option.any_eq_true, beq_iff_eq, List.contains_iff_mem,
    Bool.not_eq_true'] at holds
  obtain ⟨⟨⟨⟨⟨⟨first, foundA, orderedA⟩, second, foundB, orderedB, after⟩, e, foundX, ofA⟩, d, foundY,
    ofB⟩, waits⟩, t, moves, begins⟩ := holds
  exact ⟨s, t, run, moves, begins, (changes_keep_order reached moves foundA foundB orderedA orderedB
    after foundX ofA foundY ofB).1 waits begins⟩

section Attempts

theorem begun_keeps {e' : Sent} (joint : Joint s) (moved : Steps s action t)
    (found : s.client.sent[x]? = some e) (carries : Carries s t e e') (h : begun s x e = true) :
    begun t x e' = true := by
  obtain ⟨epoch, z, known, phase⟩ := of_begun h
  obtain ⟨task', known', steps⟩ := joint.tasked.taskOf_step joint.linked moved found carries known
  cases steps with
  | stays => exact begun_of_phase known' phase
  | moves _ _ _ _ move =>
    refine begun_of_phase known' ?_
    cases move with
    | stays => exact phase
    | starts | startsUnordered => exact .inl rfl
    | abandonsCurrent | abandonsOlder => exact .inr (.inl rfl)
    | finishesUnordered | finishesCurrent | finishesAbandoned | finishesOlder =>
      exact .inr (.inr rfl)
    | drains held => simp [held] at phase
    | endsUnbegun _ unbegun => rcases unbegun with held | ready <;> simp_all

/-- A request that has begun was written whole, so it was not reported as unsent. -/
theorem sent_of_begun (joint : Joint s) (found : s.client.sent[x]? = some e)
    (h : begun s x e = true) : e.outcome ≠ some .notSent := by
  intro notSent
  obtain ⟨epoch, z, known, _⟩ := of_begun h
  obtain ⟨_, _, decoded⟩ := task_known joint.tasked found known
  have written := (decoded z rfl).1
  rw [(joint.linked.wired.consistent x e found).2 notSent] at written
  cases written

/-- A call goes out again after a request that has begun only if it may, and if that one's reply was
lost. -/
theorem lost_of_resent (joint : Joint s) {i : ℕ} {call : Call}
    (known : s.client.calls[i]? = some call) (foundX : s.client.sent[x]? = some e)
    (foundY : s.client.sent[y]? = some d) (ofX : e.origin = .call i) (ofY : d.origin = .call i)
    (lt : x < y) (h : begun s x e = true) :
    e.outcome = some .lost ∧ retrySafe call.req call.handles = true := by
  have attempts := joint.linked.called.attempts i call known
  rcases attempts.passed x e ⟨foundX, ofX⟩ (.inl ⟨y, d, ⟨foundY, ofY⟩, lt⟩) with
    notSent | ⟨lost, resendable⟩
  · exact absurd notSent (sent_of_begun joint foundX h)
  · exact ⟨lost, attempts.resendable.symm.trans resendable⟩

theorem mem_begunOf {i : ℕ} :
    x ∈ begunOf s i ↔
      ∃ e, s.client.sent[x]? = some e ∧ e.origin = .call i ∧ begun s x e = true := by
  simp only [begunOf, List.mem_filter, List.mem_range, Option.any_eq_true, Bool.and_eq_true,
    beq_iff_eq]
  constructor
  · rintro ⟨_, e, found, origin, begins⟩
    exact ⟨e, found, origin, begins⟩
  · rintro ⟨e, found, origin, begins⟩
    exact ⟨lt_of_lookup found, e, found, origin, begins⟩

/-- Of three requests of one call one has not begun. -/
theorem length_begunOf_le (joint : Joint s) {i : ℕ} {call : Call}
    (known : s.client.calls[i]? = some call) : (begunOf s i).length ≤ 2 := by
  have rising : (begunOf s i).Pairwise (· < ·) := List.pairwise_lt_range.filter _
  have members : ∀ x ∈ begunOf s i, ∃ e, s.client.sent[x]? = some e ∧ e.origin = .call i ∧
      begun s x e = true := fun x mem => mem_begunOf.mp mem
  match list : begunOf s i with
  | [] | [_] | [_, _] => simp
  | x :: y :: z :: rest =>
    rw [list] at rising members
    obtain ⟨e, foundX, ofX, begunX⟩ := members x (by simp)
    obtain ⟨d, foundY, ofY, begunY⟩ := members y (by simp)
    obtain ⟨f, foundZ, ofZ, _⟩ := members z (by simp)
    simp only [List.pairwise_cons, List.mem_cons] at rising
    have ltXY : x < y := rising.1 y (by simp)
    have ltYZ : y < z := rising.2.1 z (by simp)
    have lostX := (lost_of_resent joint known foundX foundY ofX ofY ltXY begunX).1
    have lostY := (lost_of_resent joint known foundY foundZ ofY ofZ ltYZ begunY).1
    have attempts := joint.linked.called.attempts i call known
    have same := attempts.once x y e d ⟨foundX, ofX⟩ ⟨foundY, ofY⟩
      (.inl ⟨y, d, ⟨foundY, ofY⟩, ltXY⟩) (.inl ⟨z, f, ⟨foundZ, ofZ⟩, ltYZ⟩) lostX lostY
    omega

end Attempts

/-- The reply to an attribute read stalls: the server resets its stream, and the connection stays. -/
def stalledRun : List Protocol.Action :=
  connectRun ++ .client (.call (.getattr none)) :: sendRun 0 0 ++
    [.serve 0 .begin, .work 0 (.runs .other), .serve 0 .finish, .deliver 0 false,
      .client (.ends 0 .lost)]

/-- The connection is lost after all, and the call goes out again on the next one. -/
def resentRun : List Protocol.Action :=
  [.client .down, .client .leave, .client .releasesEnd, .client .reconnect, .dial, .hello 1,
    .server (.ack 1), .connected false, .client .root, .client .publish, .server (.register 1),
    .server (.attach 1)] ++ sendRun 0 1 ++ [.serve 1 .begin]

end JackalopeFs.CallOrder
