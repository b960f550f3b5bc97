import JackalopeFs.RequestTasks

/-! # Held changes, their wake-ups, and the ends of all requests

A held change sleeps until the changes it waits for are over or its connection is
superseded.  Its task sleeps on a notification, and of the calls that touch the
counts only some notify.  Here it is shown that these are the ones that can decide a
held change, and that no change sleeps past its decision.  With that the tasks are
never stuck: whatever the schedule was, they can bring every request to its end
without anybody giving up, leaving or resuming.
-/

namespace JackalopeFs.RequestTasks

open IndexedCells List SessionExchange TransitionRuns
open SessionAttendance (ended)

section Runs

variable {s t : Tasks} {action : Action} {i epoch : ℕ} {move : Move} {p p' : Point}
  {stage stage' : Stage} {a' : Attachment}

/-- What `drained` would answer for request `i` now, if it is held. -/
def decision (s : SessionState) (i : ℕ) : Option (Option Bool) :=
  match s.requests[i]? with
  | some ⟨epoch, .exchange x⟩ => (drained s.attachment epoch x).map Prod.snd
  | _ => none

variable {x : Exchange}

theorem decision_of_held {s : SessionState} (found : s.requests[i]? = some ⟨epoch, .exchange x⟩)
    (held : x.phase = .held) :
    decision s i = some (if s.attachment.epoch ≠ epoch then some false
      else if s.attachment.runningOlder + s.attachment.abandoned = 0 then some true else none) := by
  simp only [decision, found, drained, held, if_true]
  split_ifs <;> rfl

theorem held_of_decision {s : SessionState} {on : Option Bool} (h : decision s i = some on) :
    ∃ epoch x, s.requests[i]? = some ⟨epoch, .exchange x⟩ ∧ x.phase = .held := by
  unfold decision at h
  split at h
  · next epoch x found =>
      refine ⟨epoch, x, found, ?_⟩
      by_contra other
      simp [drained, other] at h
  · cases h

theorem undecided_iff {s : SessionState} (found : s.requests[i]? = some ⟨epoch, .exchange x⟩)
    (held : x.phase = .held) :
    decision s i = some none ↔
      s.attachment.epoch = epoch ∧ 0 < s.attachment.runningOlder + s.attachment.abandoned := by
  rw [decision_of_held found held]
  split_ifs with stale clear
  · simp [stale]
  · simp [clear]
  · simp only [true_iff]
    exact ⟨not_not.mp stale, by omega⟩

/-- The steps that notify: of a closure that has dropped its guard, and of a resume. -/
def Action.notifies : Action → Bool
  | .announce => true
  | .request _ move => move = .notify
  | _ => false

def Pending (s : Tasks) : Prop :=
  0 < s.resuming ∨ ∃ (i : ℕ) (p : Point), s.points[i]? = some p ∧ p.closure = .notifying

/-- A held change that is not the one that moves is decided by what the move does to the counts. -/
theorem decision_of_lookup {s t : SessionState} {b : Bool} (before : decision s i = some none)
    (after : decision t i = some (some b)) (held : x.phase = .held)
    (found : s.requests[i]? = some ⟨epoch, .exchange x⟩)
    (same : t.requests[i]? = some ⟨epoch, .exchange x⟩)
    (attached : t.attachment.epoch = s.attachment.epoch) :
    0 < s.attachment.runningOlder + s.attachment.abandoned ∧
      t.attachment.runningOlder + t.attachment.abandoned = 0 := by
  obtain ⟨current, fenced⟩ := (undecided_iff found held).mp before
  refine ⟨fenced, ?_⟩
  by_contra still
  have undecided := (undecided_iff same held).mpr ⟨attached.trans current, by omega⟩
  rw [undecided] at after
  cases after

/-- A step after which a held change is decided leaves the notification to the task that took it. -/
theorem Steps.announced {b : Bool} (moved : Steps s action t)
    (before : decision s.session i = some none) (after : decision t.session i = some (some b)) :
    (action = .resume ∧ 0 < t.resuming) ∨
      ∃ j p, action = .request j .finish ∧ t.points[j]? = some p ∧ p.closure = .notifying := by
  obtain ⟨epoch, x, found, held⟩ := held_of_decision before
  cases moved with
  | resumes => exact .inl ⟨rfl, Nat.succ_pos _⟩
  | accepts =>
    obtain ⟨fenced, clear⟩ := decision_of_lookup before after held found (lookup_add found) rfl
    exact absurd clear (Nat.ne_of_gt fenced)
  | turns j epoch' move _ p' stage stage' a' point found' turn =>
    by_cases same : i = j
    · subst same
      cases found.symm.trans found'
      obtain ⟨unchanged, moves⟩ := turn.of_held held
      obtain ⟨epoch', y, written, still⟩ := held_of_decision after
      simp only [Tasks.put, heard_session] at written
      cases (lookup_write found).symm.trans written
      obtain rfl : y = x := by
        obtain stays | leaves := moves
        · exact Stage.exchange.inj stays
        · exact absurd still (leaves y rfl)
      subst unchanged
      obtain ⟨fenced, clear⟩ := decision_of_lookup before after held found
        (by simpa only [Tasks.put, heard_session] using lookup_write found) rfl
      exact absurd clear (Nat.ne_of_gt fenced)
    · have unmoved : ((s.heard move).put j ⟨epoch', stage⟩ a' p' stage').session.requests[i]? =
          some ⟨epoch, .exchange x⟩ := by
        simp only [Tasks.put, heard_session]
        rw [lookup_write_of_ne same, found]
      obtain ⟨attached, lifted⟩ := turn.lifts
      obtain ⟨fenced, clear⟩ := decision_of_lookup before after held found unmoved attached
      obtain ⟨rfl, notifying⟩ := lifted fenced clear
      exact .inr ⟨j, p', rfl, lookup_write point, notifying⟩
  | announces | holds | letsGo | detaches =>
    obtain ⟨fenced, clear⟩ := decision_of_lookup before after held found found rfl
    exact absurd clear (Nat.ne_of_gt fenced)

theorem Point.notified_awake (p : Point) : p.notified.handler ≠ .waiting (.asleep false) := by
  obtain ⟨handler, closure⟩ := p
  cases handler with
  | waiting waiter => cases waiter <;> simp [Point.notified]
  | _ => simp [Point.notified]

theorem Steps.nobody_asleep (moved : Steps s action t) (told : action.notifies = true)
    (point : t.points[i]? = some p) : p.handler ≠ .waiting (.asleep false) := by
  cases moved with
  | turns _ _ move _ _ _ _ _ _ _ turn =>
    obtain rfl : move = .notify := by simpa [Action.notifies] using told
    obtain ⟨rfl, rfl⟩ | ⟨_, other⟩ := of_lookup_write point
    · cases turn with
      | notifies _ awaits => obtain rfl | rfl := awaits <;> simp
    · obtain ⟨q', -, rfl⟩ : ∃ q', s.points[i]? = some q' ∧ q'.notified = p := by
        simpa [Tasks.heard, Tasks.notifyWaiters] using other
      exact q'.notified_awake
  | announces =>
    obtain ⟨q', -, rfl⟩ : ∃ q', s.points[i]? = some q' ∧ q'.notified = p := by
      simpa [Tasks.notifyWaiters] using point
    exact q'.notified_awake
  | _ => cases told

theorem Steps.pending (moved : Steps s action t) (silent : action.notifies = false)
    (pending : Pending s) : Pending t := by
  obtain resuming | ⟨k, q, point, notifying⟩ := pending
  · cases moved with
    | turns _ _ move =>
      have other : move ≠ .notify := by simpa [Action.notifies] using silent
      rw [heard_of_ne s other]
      exact .inl resuming
    | resumes => exact .inl (Nat.succ_pos _)
    | announces => cases silent
    | _ => exact .inl resuming
  · cases moved with
    | accepts => exact .inr ⟨k, q, lookup_add point, notifying⟩
    | turns j _ move _ p' _ _ _ found' _ turn =>
      have other : move ≠ .notify := by simpa [Action.notifies] using silent
      rw [heard_of_ne s other]
      by_cases same : k = j
      · subst same
        cases point.symm.trans found'
        exact .inr ⟨k, p', lookup_write point, turn.notifying_stays notifying other⟩
      · exact .inr ⟨k, q, (lookup_write_of_ne same).trans point, notifying⟩
    | announces => cases silent
    | _ => exact .inr ⟨k, q, point, notifying⟩

/-- A held change that sleeps unwoken and is decided was asleep and held before the step. -/
theorem Steps.asleep_before {b : Bool} (moved : Steps s action t)
    (silent : action.notifies = false) (point : t.points[i]? = some p)
    (asleep : p.handler = .waiting (.asleep false))
    (decided : decision t.session i = some (some b)) :
    s.points[i]? = some p ∧ ∃ on, decision s.session i = some on := by
  obtain ⟨epoch, x, found, held⟩ := held_of_decision decided
  cases moved with
  | accepts =>
    obtain point | ⟨-, rfl⟩ := of_lookup_add point
    · obtain found | ⟨-, new⟩ := of_lookup_add found
      · exact ⟨point, _, decision_of_held found held⟩
      · cases new
    · cases asleep
  | turns _ _ move _ _ _ _ _ _ before turn =>
    have other : move ≠ .notify := by simpa [Action.notifies] using silent
    rw [heard_of_ne s other] at point found decided
    obtain ⟨rfl, rfl⟩ | ⟨different, point⟩ := of_lookup_write point
    · exfalso
      cases (lookup_write before).symm.trans found
      have undecided := (undecided_iff found held).mpr (turn.of_asleep asleep)
      rw [undecided] at decided
      cases decided
    · have found : s.session.requests[i]? = some ⟨epoch, .exchange x⟩ :=
        (lookup_write_of_ne different).symm.trans found
      exact ⟨point, _, decision_of_held found held⟩
  | announces => cases silent
  | _ => exact ⟨point, _, decision_of_held found held⟩

/-- No held change that can go on, or must be refused, sleeps with no notification to come. -/
def Heard (s : Tasks) : Prop :=
  ∀ (i : ℕ) (p : Point) (b : Bool), s.points[i]? = some p →
    p.handler = .waiting (.asleep false) → decision s.session i = some (some b) → Pending s

theorem Heard.next (h : Heard s) (moved : Steps s action t) : Heard t := by
  intro i p b point asleep decided
  cases told : action.notifies with
  | true => exact absurd asleep (moved.nobody_asleep told point)
  | false =>
    obtain ⟨before, on, was⟩ := moved.asleep_before told point asleep decided
    cases on with
    | some b => exact moved.pending told (h i p b before asleep was)
    | none =>
      obtain ⟨-, pending⟩ | ⟨j, q, -, found, notifying⟩ := moved.announced was decided
      · exact .inl pending
      · exact .inr ⟨j, q, found, notifying⟩

theorem heard_of_reachable {id token : ℕ} (h : (machine id token).Reachable s) : Heard s := by
  refine Machine.Reachable.invariant_of (P := Heard) (Q := Sound) (fun _ => sound_of_reachable)
    ?_ ?_ h
  · intro i p b point
    simp [machine] at point
  · intro s action t sound _ heard moves
    exact heard.next (sound.of_step moves)

/-- The `Notified` of a task that waits has been notified. -/
def Waiter.woken : Waiter → Bool
  | .idle => false
  | .registered woken | .asleep woken => woken

variable {waiter : Waiter}

theorem Steps.wakes (moved : Steps s action t) (told : action.notifies = true)
    (point : s.points[i]? = some p) (waits : p.handler = .waiting waiter)
    (registered : waiter ≠ .idle) :
    ∃ p' waiter', t.points[i]? = some p' ∧ p'.handler = .waiting waiter' ∧
      waiter'.woken = true := by
  have woken : ∃ waiter', p.notified.handler = .waiting waiter' ∧ waiter'.woken = true := by
    obtain ⟨handler, closure⟩ := p
    obtain rfl : handler = .waiting waiter := waits
    cases waiter with
    | idle => exact absurd rfl registered
    | registered => exact ⟨.registered true, rfl, rfl⟩
    | asleep => exact ⟨.asleep true, rfl, rfl⟩
  obtain ⟨waiter', handler, woken⟩ := woken
  refine ⟨p.notified, waiter', ?_, handler, woken⟩
  cases moved with
  | turns j _ move _ _ _ _ _ found' _ turn =>
    obtain rfl : move = .notify := by simpa [Action.notifies] using told
    have different : i ≠ j := by
      rintro rfl
      cases found'.symm.trans point
      cases turn with
      | notifies _ awaits => obtain rfl | rfl := awaits <;> cases waits
    refine (lookup_write_of_ne different).trans ?_
    simp [Tasks.heard, Tasks.notifyWaiters, point]
  | announces => simp [Tasks.notifyWaiters, point]
  | _ => cases told

def work (s : Tasks) : ℕ :=
  (s.points.map rank).sum + s.resuming

theorem Point.rank_notified (p : Point) : rank p.notified = rank p := by
  obtain ⟨handler, closure⟩ := p
  cases handler with
  | waiting waiter => cases waiter <;> rfl
  | _ => rfl

theorem work_notifyWaiters (s : Tasks) : work s.notifyWaiters = work s := by
  simp [work, Tasks.notifyWaiters, Function.comp_def, Point.rank_notified]

theorem work_put (point : s.points[i]? = some p) :
    work ((s.heard move).put i ⟨epoch, stage⟩ a' p' stage') + rank p = work s + rank p' := by
  by_cases told : move = .notify
  · have after : s.notifyWaiters.points[i]? = some p.notified := by
      simp [Tasks.notifyWaiters, point]
    have written := sum_map_write rank p' after
    have same := work_notifyWaiters s
    simp only [work, Tasks.heard, told, if_true, Tasks.put, p.rank_notified] at *
    omega
  · have written := sum_map_write rank p' point
    rw [heard_of_ne s told]
    simp only [work, Tasks.put] at *
    omega

theorem Sound.look_decides {b woken : Bool} (h : Sound s) (point : s.points[i]? = some p)
    (registered : p.handler = .waiting (.registered woken))
    (decided : decision s.session i = some (some b)) :
    ∃ t p', step s (.request i .look) = some t ∧ t.points[i]? = some p' ∧
      work t < work s ∧ ∀ waiter, p'.handler ≠ .waiting waiter := by
  obtain ⟨epoch, x, found, held⟩ := held_of_decision decided
  have may : enabled s (.request i .look) = true := by
    cases woken <;> simp [enabled, point, found, offered, registered]
  obtain ⟨t, moves, steps⟩ := h.turns may
  refine ⟨t, ?_⟩
  cases steps with
  | turns _ _ _ _ p' _ stage' a' found' before turn =>
    cases found.symm.trans before
    cases found'.symm.trans point
    have changed := @work_put s i epoch .look p p' (.exchange x) stage' a' point
    refine ⟨p', moves, lookup_write point, ?_⟩
    cases turn with
    | sleeps _ current fenced =>
      rw [(undecided_iff found held).mpr ⟨current, fenced⟩] at decided
      cases decided
    | drains | supersedes =>
      simp only [rank] at changed
      exact ⟨by omega, by simp⟩

theorem Sound.pending_notifies (h : Sound s) (pending : Pending s) :
    ∃ action, action.notifies = true ∧ (step s action).isSome := by
  obtain resuming | ⟨j, p, point, notifying⟩ := pending
  · refine ⟨.announce, rfl, ?_⟩
    have may : enabled s .announce = true := by simpa [enabled] using resuming
    obtain ⟨t, moves, -⟩ := h.steps may
    simp [moves]
  · refine ⟨.request j .notify, rfl, ?_⟩
    obtain ⟨task, found, -⟩ := exists_related h.fits point
    have may : enabled s (.request j .notify) = true := by
      simp [enabled, point, found, offered, notifying]
    obtain ⟨t, moves, -⟩ := h.turns may
    simp [moves]

/-- No held change misses its wake-up.  A step that decides a held change is the drop of a guard or
a resume, and its task has the notification before it; a notification wakes every task with an
enabled `Notified`; a task that looks after the change was decided is let go; and so in no state
does a decided change sleep unwoken unless a step that notifies can be made. -/
theorem held_change_is_woken {id token : ℕ} {s : Tasks} (h : (machine id token).Reachable s) :
    (∀ (action : Action) (t : Tasks) (i : ℕ) (b : Bool), step s action = some t →
      decision s.session i = some none →
      decision t.session i = some (some b) →
      (action = .resume ∧ 0 < t.resuming) ∨
        ∃ j p, action = .request j .finish ∧ t.points[j]? = some p ∧ p.closure = .notifying) ∧
    (∀ (action : Action) (t : Tasks) (i : ℕ) (p : Point) (waiter : Waiter),
      step s action = some t → action.notifies = true → s.points[i]? = some p →
      p.handler = .waiting waiter → waiter ≠ .idle →
      ∃ p' waiter', t.points[i]? = some p' ∧ p'.handler = .waiting waiter' ∧
        waiter'.woken = true) ∧
    (∀ (i : ℕ) (p : Point) (woken b : Bool), s.points[i]? = some p →
      p.handler = .waiting (.registered woken) → decision s.session i = some (some b) →
      ∃ t p', step s (.request i .look) = some t ∧ t.points[i]? = some p' ∧
        ∀ waiter, p'.handler ≠ .waiting waiter) ∧
    (∀ (i : ℕ) (p : Point) (b : Bool), s.points[i]? = some p →
      p.handler = .waiting (.asleep false) → decision s.session i = some (some b) →
      ∃ action, action.notifies = true ∧ (step s action).isSome) := by
  have sound := sound_of_reachable h
  refine ⟨?_, ?_, ?_, ?_⟩
  · intro action t i b moves before after
    exact (sound.of_step moves).announced before after
  · intro action t i p waiter moves told point waits registered
    exact (sound.of_step moves).wakes told point waits registered
  · intro i p woken b point registered decided
    obtain ⟨t, p', moves, after, -, gone⟩ := sound.look_decides point registered decided
    exact ⟨t, p', moves, after, gone⟩
  · intro i p b point asleep decided
    exact sound.pending_notifies (heard_of_reachable h i p b point asleep decided)

/-- A change is given up on while it runs, a later one is held behind it and sleeps, and the first
ends: the guard's drop has let go of the lock and has not notified yet. -/
def sleeperRun : List Action :=
  [.accept 1, .request 0 (.decode true), .request 0 .begin, .request 0 .cancel,
    .accept 1, .request 1 (.decode true), .request 1 .register, .request 1 .look,
    .request 0 .finish]

theorem held_change_is_woken_sleeper :
    ∃ s, (machine 1 7).run sleeperRun = some s ∧
      s.points[1]? = some ⟨.waiting (.asleep false), .unspawned⟩ ∧
      decision s.session 1 = some (some true) ∧
      ∃ action, action.notifies = true ∧ (step s action).isSome := by
  obtain ⟨s, ends, reached, holds⟩ := Machine.exists_of_run (by decide +kernel :
    ((machine 1 7).run sleeperRun).any (fun s => decide
      (s.points[1]? = some ⟨.waiting (.asleep false), .unspawned⟩ ∧
        decision s.session 1 = some (some true))) = true)
  obtain ⟨asleep, decided⟩ := of_decide_eq_true holds
  exact ⟨s, ends, asleep, decided,
    (held_change_is_woken reached).2.2.2 1 _ true asleep rfl decided⟩

/-- The steps of tasks and closures that go on by themselves: no client gives up on anything, no
stream ends, and no connection comes, goes or resumes the session. -/
def Action.serves : Action → Bool
  | .announce => true
  | .request _ (.decode _) => true
  | .request _ .register | .request _ .look | .request _ .begin | .request _ .finish
  | .request _ .notify | .request _ .join => true
  | _ => false

theorem Fits.holds (h : Fits p stage) :
    (RequestTask.mk epoch stage).holds = !ended ⟨epoch, stage⟩ := by
  cases h with
  | unspawned _ unrun => obtain rfl | rfl | rfl := unrun <;> rfl
  | _ => rfl

theorem Fits.held_of_waiting (h : Fits p stage) (waits : p.handler = .waiting waiter) :
    p.closure = .unspawned ∧ stage = .exchange ⟨true, .held, true⟩ := by
  cases h with
  | held => exact ⟨rfl, rfl⟩
  | notifying _ awaits => obtain rfl | rfl := awaits <;> cases waits
  | finished _ _ spawned | superseded _ spawned =>
    obtain rfl | rfl | rfl := spawned <;> cases waits
  | _ => cases waits

theorem Fits.ended_of_returned (h : Fits p stage) (returned : p.handler = .returned) :
    ended ⟨epoch, stage⟩ = true := by
  cases h with
  | unspawned _ unrun => obtain rfl | rfl | rfl := unrun <;> rfl
  | undecoded | detached | notifying | finished | superseded | cancelled => rfl
  | _ => cases returned

/-- A request is done, waits as a held change, or has a move of its own that is not a wait. -/
theorem Fits.serves (h : Fits p stage) :
    rank p = 0 ∨ (∃ waiter, p.handler = .waiting waiter) ∨
      ∃ move, offered p stage move = true ∧ (∀ i, (Action.request i move).serves = true) ∧
        move ≠ .register ∧ move ≠ .look := by
  cases h with
  | reading => exact .inr (.inr ⟨.decode true, rfl, fun _ => rfl, by simp, by simp⟩)
  | held waiter => exact .inr (.inl ⟨waiter, rfl⟩)
  | ready | detached => exact .inr (.inr ⟨.begin, rfl, fun _ => rfl, by simp, by simp⟩)
  | running | abandoned => exact .inr (.inr ⟨.finish, rfl, fun _ => rfl, by simp, by simp⟩)
  | notifying => exact .inr (.inr ⟨.notify, rfl, fun _ => rfl, by simp, by simp⟩)
  | finished _ _ spawned | superseded _ spawned =>
    obtain rfl | rfl | rfl := spawned
    · exact .inr (.inr ⟨.join, rfl, fun _ => rfl, by simp, by simp⟩)
    · exact .inr (.inr ⟨.join, rfl, fun _ => rfl, by simp, by simp⟩)
    · exact .inl rfl
  | undecoded | unspawned | cancelled => exact .inl rfl

theorem Sound.serves (h : Sound s) (point : s.points[i]? = some p) (left : rank p ≠ 0)
    (busy : ∀ waiter, p.handler ≠ .waiting waiter) :
    ∃ action t, action.serves = true ∧ step s action = some t ∧ work t < work s := by
  obtain ⟨⟨epoch, stage⟩, found, fits⟩ := exists_related h.fits point
  obtain done | ⟨waiter, waits⟩ | ⟨move, offer, serves, notRegister, notLook⟩ := fits.serves
  · exact absurd done left
  · exact absurd waits (busy waiter)
  · have may : enabled s (.request i move) = true := by simpa [enabled, point, found] using offer
    obtain ⟨t, moves, steps⟩ := h.turns may
    refine ⟨_, t, serves i, moves, ?_⟩
    cases steps with
    | turns _ epoch' _ _ p' stage stage' a' found' _ turn =>
      cases point.symm.trans found'
      obtain ⟨le, lower⟩ := turn.rank_le
      have changed := @work_put s i epoch' move p p' stage stage' a' point
      have different : rank p' ≠ rank p := by
        intro same
        obtain register | ⟨look, -⟩ := lower same
        · exact notRegister register
        · exact notLook look
      omega

theorem Fits.idle (h : Fits p stage) (calm : rank p = 0 ∨ ∃ waiter, p.handler = .waiting waiter) :
    (RequestTask.mk epoch stage).underWay = false := by
  cases h with
  | running | abandoned =>
    exfalso
    obtain none | ⟨waiter, waits⟩ := calm
    · cases none
    · cases waits
  | ready ordered => cases ordered <;> rfl
  | finished ordered => cases ordered <;> rfl
  | unspawned _ unrun => obtain rfl | rfl | rfl := unrun <;> rfl
  | _ => rfl

/-- Nothing is left to do but what held changes wait for. -/
def Calm (s : Tasks) : Prop :=
  s.resuming = 0 ∧ ∀ p ∈ s.points, rank p = 0 ∨ ∃ waiter, p.handler = .waiting waiter

theorem Sound.clear (h : Sound s) (calm : Calm s) :
    s.session.attachment.runningOlder + s.session.attachment.abandoned = 0 := by
  have idle : ∀ task ∈ s.session.requests, task.underWay = false := by
    intro task mem
    obtain ⟨j, found⟩ := mem_iff_getElem?.mp mem
    obtain ⟨q, point, fits⟩ := exists_related h.fits.flip found
    exact Fits.idle fits (calm.2 q (mem_of_getElem? point))
  have zero := h.counted.zero_of_idle idle
  omega

theorem decided_of_clear {s : SessionState} (found : s.requests[i]? = some ⟨epoch, .exchange x⟩)
    (held : x.phase = .held) (clear : s.attachment.runningOlder + s.attachment.abandoned = 0) :
    ∃ b, decision s i = some (some b) := by
  rw [decision_of_held found held]
  split_ifs
  · exact ⟨false, rfl⟩
  · exact ⟨true, rfl⟩

theorem Sound.not_pending (h : Sound s) (calm : Calm s) : ¬ Pending s := by
  rintro (resuming | ⟨j, q, point, notifying⟩)
  · exact Nat.ne_of_gt resuming calm.1
  · obtain ⟨task, -, fits⟩ := exists_related h.fits point
    obtain none | ⟨waiter, waits⟩ := calm.2 q (mem_of_getElem? point)
    · simp [rank, notifying] at none
    · rw [(fits.held_of_waiting waits).1] at notifying
      cases notifying

theorem Sound.look_clears (h : Sound s) {woken : Bool} (point : s.points[i]? = some p)
    (registered : p.handler = .waiting (.registered woken))
    (clear : s.session.attachment.runningOlder + s.session.attachment.abandoned = 0) :
    ∃ t, step s (.request i .look) = some t ∧ work t < work s := by
  obtain ⟨⟨epoch, stage⟩, found, fits⟩ := exists_related h.fits point
  obtain rfl : stage = _ := (fits.held_of_waiting registered).2
  obtain ⟨b, decided⟩ := decided_of_clear found rfl clear
  obtain ⟨t, p', moves, -, less, -⟩ := h.look_decides point registered decided
  exact ⟨t, moves, less⟩

/-- A task that has no `Notified`, or whose `Notified` was notified, enables a new one. -/
theorem Sound.registers (h : Sound s) (point : s.points[i]? = some p)
    (waits : p.handler = .waiting waiter) (free : waiter = .idle ∨ waiter = .asleep true) :
    ∃ t, step s (.request i .register) = some t ∧ Sound t ∧
      t.points[i]? = some ⟨.waiting (.registered false), .unspawned⟩ ∧
      t.session.attachment = s.session.attachment ∧ work t = work s := by
  obtain ⟨⟨epoch, stage⟩, found, fits⟩ := exists_related h.fits point
  have may : enabled s (.request i .register) = true := by
    obtain rfl | rfl := free <;> simp [enabled, point, found, offered, waits]
  obtain ⟨t, moves, steps⟩ := h.turns may
  refine ⟨t, moves, h.next steps, ?_⟩
  cases steps with
  | turns _ epoch' _ _ p' stage stage' a' found' _ turn =>
    cases point.symm.trans found'
    have changed := @work_put s i epoch' .register p p' stage stage' a' point
    cases turn with
    | registers =>
      simp only [rank] at changed
      exact ⟨lookup_write point, rfl, by omega⟩

/-- When all is calm a held change goes on: its task is awake, and there is nothing to wait for. -/
theorem Sound.released (h : Sound s) (heard : Heard s) (calm : Calm s)
    (point : s.points[i]? = some p) (waits : p.handler = .waiting waiter) (id token : ℕ) :
    ∃ actions t, (∀ action ∈ actions, action.serves = true) ∧
      (machine id token).runFrom s actions = some t ∧ work t < work s := by
  have clear := h.clear calm
  have again (free : waiter = .idle ∨ waiter = .asleep true) :
      ∃ actions t, (∀ action ∈ actions, action.serves = true) ∧
        (machine id token).runFrom s actions = some t ∧ work t < work s := by
    obtain ⟨m, first, sound, registered, attached, same⟩ := h.registers point waits free
    rw [← attached] at clear
    obtain ⟨t, second, less⟩ := sound.look_clears registered rfl clear
    refine ⟨[.request i .register, .request i .look], t, by simp [Action.serves], ?_, by omega⟩
    rw [Machine.runFrom_cons first, Machine.runFrom_cons second]
    rfl
  cases waiter with
  | idle => exact again (.inl rfl)
  | registered =>
    obtain ⟨t, moves, less⟩ := h.look_clears point waits clear
    refine ⟨[.request i .look], t, by simp [Action.serves], ?_, less⟩
    rw [Machine.runFrom_cons moves]
    rfl
  | asleep woken =>
    cases woken with
    | true => exact again (.inr rfl)
    | false =>
      obtain ⟨⟨epoch, stage⟩, found, fits⟩ := exists_related h.fits point
      obtain rfl : stage = _ := (fits.held_of_waiting waits).2
      obtain ⟨b, decided⟩ := decided_of_clear found rfl clear
      exact absurd (heard i p b point waits decided) (h.not_pending calm)

/-- When not all is calm, some task or closure goes on, or a resume notifies. -/
theorem Sound.serves_of_busy (h : Sound s) (busy : ¬ Calm s) :
    ∃ action t, action.serves = true ∧ step s action = some t ∧ work t < work s := by
  by_cases announced : s.resuming = 0
  · obtain ⟨p, mem, goes⟩ : ∃ p ∈ s.points,
        ¬ (rank p = 0 ∨ ∃ waiter, p.handler = .waiting waiter) := by
      by_contra none
      exact busy ⟨announced, fun p mem => not_not.mp fun goes => none ⟨p, mem, goes⟩⟩
    obtain ⟨i, point⟩ := mem_iff_getElem?.mp mem
    refine h.serves point (fun done => goes (.inl done)) fun waiter waits => ?_
    exact goes (.inr ⟨waiter, waits⟩)
  · have may : enabled s .announce = true := by
      simpa [enabled] using Nat.pos_of_ne_zero announced
    refine ⟨.announce, _, rfl, if_pos may, ?_⟩
    have same := work_notifyWaiters s
    simp only [work, Tasks.notifyWaiters] at *
    omega

theorem exists_left (left : work s ≠ 0) (announced : s.resuming = 0) :
    ∃ p ∈ s.points, rank p ≠ 0 := by
  by_contra none
  refine left ?_
  have zero : (s.points.map rank).sum = 0 := by
    refine sum_eq_zero fun n mem => ?_
    obtain ⟨p, there, rfl⟩ := mem_map.mp mem
    exact not_not.mp fun more => none ⟨p, there, more⟩
  simp [work, zero, announced]

/-- As long as work is left, the tasks have steps of their own that do some of it. -/
theorem Sound.advances (h : Sound s) (heard : Heard s) (left : work s ≠ 0) (id token : ℕ) :
    ∃ actions t, (∀ action ∈ actions, action.serves = true) ∧
      (machine id token).runFrom s actions = some t ∧ work t < work s := by
  by_cases calm : Calm s
  · obtain ⟨p, mem, more⟩ := exists_left left calm.1
    obtain ⟨i, point⟩ := mem_iff_getElem?.mp mem
    obtain ⟨waiter, waits⟩ := (calm.2 p mem).resolve_left more
    exact h.released heard calm point waits id token
  · obtain ⟨action, t, serves, moves, less⟩ := h.serves_of_busy calm
    exact ⟨[action], t, by simpa using serves, Machine.runFrom_cons moves, less⟩

/-- From every state the tasks can come to their ends by themselves. -/
theorem exists_end {id token : ℕ} (h : (machine id token).Reachable s) :
    ∃ actions t, (∀ action ∈ actions, action.serves = true) ∧
      (machine id token).runFrom s actions = some t ∧ work t = 0 := by
  induction left : work s using Nat.strong_induction_on generalizing s with
  | _ n ih =>
    by_cases done : work s = 0
    · exact ⟨[], s, by simp, rfl, done⟩
    · obtain ⟨actions, m, serves, ran, less⟩ :=
        (sound_of_reachable h).advances (heard_of_reachable h) done id token
      obtain ⟨more, t, servesMore, ranMore, over'⟩ :=
        ih (work m) (left ▸ less) (h.runFrom ran) rfl
      refine ⟨actions ++ more, t, ?_, ?_, over'⟩
      · intro action mem
        exact (mem_append.mp mem).elim (serves action) (servesMore action)
      · rw [Machine.runFrom_append ran, ranMore]

theorem Sound.ended_of_done (h : Sound s) (done : work s = 0) (task : RequestTask)
    (mem : task ∈ s.session.requests) : ended task = true := by
  obtain ⟨i, found⟩ := mem_iff_getElem?.mp mem
  obtain ⟨p, point, fits⟩ := exists_related h.fits.flip found
  have none : rank p = 0 := by
    have le := single_le_sum (fun _ _ => Nat.zero_le _) _
      (mem_map_of_mem (f := rank) (mem_of_getElem? point))
    simp only [work] at done
    omega
  refine Fits.ended_of_returned fits ?_
  obtain ⟨handler, closure⟩ := p
  cases handler <;> simp [rank] at none ⊢

/-- A move of a request lets one hold on the session go if it ends the request, and none
otherwise. -/
theorem Sound.lets_go (h : Sound s) {task task' : RequestTask}
    (moves : step s (.request i move) = some t) (before : s.session.requests[i]? = some task)
    (after : t.session.requests[i]? = some task') :
    t.session.holders + (if !ended task && ended task' then 1 else 0) = s.session.holders := by
  cases h.of_step moves with
  | turns _ epoch _ _ _ stage stage' _ point found turn =>
    cases before.symm.trans found
    cases (put_request found).symm.trans after
    have fits := h.fits_at point found
    have positive : ended ⟨epoch, stage⟩ = false → 0 < s.session.holders := by
      intro unended
      have some_hold : 0 < s.session.requests.countP RequestTask.holds :=
        countP_pos_iff.mpr ⟨_, mem_of_getElem? found,
          by simp [fits.holds, unended]⟩
      have := h.held
      omega
    simp only [Tasks.put, heard_session, turn.fits.holds, fits.holds]
    cases last : ended ⟨epoch, stage⟩ <;> cases ended ⟨epoch, stage'⟩ <;> simp
    have := positive last
    omega

theorem Steps.ended_stays (moved : Steps s action t) {task : RequestTask}
    (found : s.session.requests[i]? = some task) (last : ended task = true) :
    t.session.requests[i]? = some task := by
  cases moved with
  | accepts => exact lookup_add found
  | turns j _ _ _ _ _ _ _ _ found' turn =>
    simp only [Tasks.put, heard_session]
    by_cases same : i = j
    · subst same
      cases found.symm.trans found'
      rw [turn.ended_stays last]
      exact lookup_write found
    · rw [lookup_write_of_ne same, found]
  | _ => exact found

/-- The exchange machine never reaches an impossible phase.  In every state of every schedule no
call that the program points allow is refused; a request holds the session exactly while it has not
ended, and has ended once its task is past it; the session's holds are its connections' and those;
an ended request stays as it is; a move lets go of one hold exactly if it ends its request, and
brings the request nearer to its end unless it is part of a wait that goes on; and the tasks' own
steps can bring every request to its end. -/
theorem exchange_ends_once {id token : ℕ} {s : Tasks} (h : (machine id token).Reachable s) :
    (∀ action, enabled s action = true → (step s action).isSome) ∧
    (∀ (i : ℕ) (p : Point) (task : RequestTask), s.points[i]? = some p →
      s.session.requests[i]? = some task →
      task.holds = !ended task ∧ (p.handler = .returned → ended task = true)) ∧
    s.session.holders = s.conns + s.session.requests.countP (fun task => !ended task) ∧
    (∀ (action : Action) (t : Tasks) (i : ℕ) (task : RequestTask), step s action = some t →
      s.session.requests[i]? = some task → ended task = true →
      t.session.requests[i]? = some task) ∧
    (∀ (i : ℕ) (move : Move) (t : Tasks), step s (.request i move) = some t →
      ∃ p p' task task', s.points[i]? = some p ∧ t.points[i]? = some p' ∧
        s.session.requests[i]? = some task ∧ t.session.requests[i]? = some task' ∧
        t.session.holders + (if !ended task && ended task' then 1 else 0) = s.session.holders ∧
        rank p' ≤ rank p ∧
        (rank p' = rank p → move = .register ∨ move = .look ∧ ∃ w, p'.handler = .waiting w)) ∧
    ∃ actions t, (∀ action ∈ actions, action.serves = true) ∧
      (machine id token).runFrom s actions = some t ∧
      ∀ task ∈ t.session.requests, ended task = true := by
  have sound := sound_of_reachable h
  refine ⟨?_, ?_, ?_, ?_, ?_, ?_⟩
  · intro action may
    obtain ⟨t, moves, -⟩ := sound.steps may
    simp [moves]
  · intro i p task point found
    have fits := sound.fits_at point found
    exact ⟨fits.holds, fits.ended_of_returned⟩
  · rw [sound.held]
    congr 1
    refine List.countP_congr fun task mem => ?_
    obtain ⟨i, found⟩ := List.mem_iff_getElem?.mp mem
    obtain ⟨p, point, fits⟩ := exists_related sound.fits.flip found
    rw [Fits.holds fits]
  · intro action t i task moves found last
    exact (sound.of_step moves).ended_stays found last
  · intro i move t moves
    cases sound.of_step moves with
    | turns _ epoch _ p p' stage stage' a' point found turn =>
      exact ⟨p, p', _, _, point, put_point point _, found, put_request found,
        sound.lets_go moves found (put_request found), turn.rank_le⟩
  · obtain ⟨actions, t, serves, ran, done⟩ := exists_end h
    exact ⟨actions, t, serves, ran, (sound_of_reachable (h.runFrom ran)).ended_of_done done⟩

theorem exchange_ends_once_sleeper :
    ∃ s, (machine 1 7).run sleeperRun = some s ∧ s.session.holders = 1 ∧
      (∀ action, enabled s action = true → (step s action).isSome) ∧
      ∃ actions t, (∀ action ∈ actions, action.serves = true) ∧
        (machine 1 7).runFrom s actions = some t ∧
        ∀ task ∈ t.session.requests, ended task = true := by
  obtain ⟨s, ends, reached, holds⟩ := Machine.exists_of_run (by decide +kernel :
    ((machine 1 7).run sleeperRun).any (fun s => decide (s.session.holders = 1)) = true)
  obtain ⟨unrefused, -, -, -, -, ending⟩ := exchange_ends_once reached
  exact ⟨s, ends, of_decide_eq_true holds, unrefused, ending⟩

end Runs

end JackalopeFs.RequestTasks
