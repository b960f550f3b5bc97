import JackalopeFs.FinishedExchanges

/-! # Changes do not overtake each other

A change whose call started after another's ended waits, at the client or at the
server, until the other can do nothing more.  No single place enforces this.  On one
connection the client waits for the answers to the changes it gave up on; on one
session a newer connection's changes are held while an older one's run or while one
given up on does; and a new session is made only when nothing is left that could run
on the old one.  The invariant below puts the three together, for every interleaving of
the client, the server and the network.

Of QUIC it is assumed that a frame not written whole is never decoded, that no answer
is read after the client saw the connection's end, and that a reset may reach the
server late or never.
-/

namespace JackalopeFs.ChangeOrder

open ClientCalls ClientConnections ClientMachine ClientTasks FinishedExchanges IndexedCells Protocol
open ProtocolLinks ServedExchanges SessionAttendance SessionExchange SessionOwnership SessionTable
open TransitionRuns WireRequests

variable {s t : System} {x y : ℕ} {e d : Sent} {action : Protocol.Action}

/-- Exchange `x` was over when exchange `y` was made, both are changes, and `y` waited for the answers
to those given up on. -/
structure Follows (s : System) (x y : ℕ) (e d : Sent) : Prop where
  earlier : s.client.sent[x]? = some e
  later : s.client.sent[y]? = some d
  before : x ∈ d.overBefore
  waits : ∀ fh, d.origin ≠ .reopen fh
  change : e.req.changes = true
  changes : d.req.changes = true

/-- The request of the exchange has begun, or nothing holds it back any more. -/
def Active (s : System) (y : ℕ) (d : Sent) : Prop :=
  begun s y d = true ∨
    ∃ epoch z, s.taskOf y d = some ⟨epoch, .exchange z⟩ ∧ z.phase = .ready ∧
      epoch = s.server.sessions.epoch (s.sessionOf d)

/-- What the client's own waiting guarantees of an exchange made after another was over: it goes out
on a newer connection, the other was never written or was answered, or it will not go out itself. -/
def Separated (s : System) (x : ℕ) (e d : Sent) : Prop :=
  e.generation < d.generation ∨
    (e.generation = d.generation ∧ (e.stage = .unwritten ∨ (s.served x).arrived.isSome = true)) ∨
    ((s.client.attached d.generation).up = false ∧ d.stage.written = false)

structure Ordered (s : System) : Prop where
  answered : ∀ (x : ℕ) (e : Sent), s.client.sent[x]? = some e → e.req.changes = true →
    e.stage = .closed →
    (s.served x).arrived.isSome = true ∨ (s.client.attached e.generation).up = false
  cut : ∀ (x : ℕ) (e : Sent) (g : ℕ), s.client.sent[x]? = some e → e.generation < g →
    g ≤ s.client.generation → (s.client.attached g).resumed = false → Done s x e
  dialed : ∀ (n : ℕ) (dial : Dial) (k : ℕ) (c : ConnTask), s.current = some n →
    s.dials[n]? = some dial → dial.conn = some k → s.server.conns[k]? = some c →
    c.resumed = false → ∀ (x : ℕ) (e : Sent), s.client.sent[x]? = some e → Done s x e
  separated : ∀ (x y : ℕ) (e d : Sent), Follows s x y e d → Separated s x e d
  done : ∀ (x y : ℕ) (e d : Sent), Follows s x y e d → Active s y d → Done s x e

section Steps

theorem arrived_keeps (moved : Steps s action t) (heard : (s.served x).arrived.isSome = true) :
    (t.served x).arrived.isSome = true := by
  cases moved with
  | accepts | serves | works =>
    exact (setServed_keeps (Option.isSome ∘ Served.arrived) (by rfl)).trans heard
  | delivers =>
    simp only [System.setServed, Function.update_apply]
    split_ifs
    · rfl
    · exact heard
  | _ => exact heard

/-- A change's exchange is closed only when the client heard of it or saw its connection end. -/
theorem heard_of_closes {e' : Sent} (linked : Linked s) (moved : Steps s action t)
    (found : s.client.sent[x]? = some e) (found' : t.client.sent[x]? = some e')
    (changes : e.req.changes = true) (before : e.stage ≠ .closed) (after : e'.stage = .closed) :
    (s.served x).arrived.isSome = true ∨ (s.client.attached e.generation).up = false := by
  have kept : t.client.sent = s.client.sent → False := by
    intro same
    rw [same] at found'
    cases found.symm.trans found'
    exact before after
  cases moved with
  | client _ _ _ permitted moved =>
    rcases closes_step linked.called moved found found' changes before after with
      rfl | ⟨how, rfl, awaiting, answers⟩
    · simpa [System.permits, found] using permitted
    · rcases answers with rfl | rfl | ⟨resp, rfl⟩
      · simp only [System.permits, found, Option.all_some, Bool.or_eq_true, beq_iff_eq,
          Bool.not_eq_true'] at permitted
        rcases permitted with reset | down
        · simp [reset]
        · exact .inr down
      · simp only [System.permits, found, Option.all_some, awaiting, Bool.or_eq_true] at permitted
        rcases permitted with writing | garbled
        · cases writing
        · obtain ⟨arrival, arrived, _⟩ := (Option.any_eq_true _ _).mp garbled
          simp [arrived]
      · simp only [System.permits, found, Option.all_some, beq_iff_eq] at permitted
        simp [permitted]
  | _ => exact (kept rfl).elim

end Steps

section Sessions

/-- Generations that each resumed the one before are connections to one session. -/
theorem session_of_resumed (linked : Linked s) {g g' : ℕ} (positive : 0 < g) (le : g ≤ g')
    (known : g' ≤ s.client.generation)
    (resumed : ∀ k, g < k → k ≤ g' → (s.client.attached k).resumed = true) :
    (s.client.attached g').session = (s.client.attached g).session := by
  induction g', le using Nat.le_induction with
  | base => rfl
  | succ n _ ih =>
    have again := linked.resumed n (by omega) (by omega) (resumed (n + 1) (by omega) (Nat.le_refl _))
    exact again.trans (ih (by omega) fun k lt le' => resumed k lt (by omega))

/-- Between two generations either a new session began or they are connections to one. -/
theorem cut_or_session (linked : Linked s) {g g' : ℕ} (positive : 0 < g) (le : g ≤ g')
    (known : g' ≤ s.client.generation) :
    (∃ k, g < k ∧ k ≤ g' ∧ (s.client.attached k).resumed = false) ∨
      (s.client.attached g').session = (s.client.attached g).session := by
  by_cases cut : ∃ k, g < k ∧ k ≤ g' ∧ (s.client.attached k).resumed = false
  · exact .inl cut
  · refine .inr (session_of_resumed linked positive le known fun k lt le' => ?_)
    by_contra fresh
    exact cut ⟨k, lt, le', by simpa using fresh⟩

/-- A server that will not resume the client's session has nothing left of it that could run. -/
theorem done_of_refused (linked : Linked s) (tasked : Tasked s) (h : Ordered s) {n : ℕ}
    {resume : Option (ℕ × ℕ)} (current : s.current = some n)
    (dial : s.dials[n]? = some ⟨resume, none⟩)
    (refused : ∀ r, resume = some r → s.server.sessions.resume r.1 r.2 = none)
    (found : s.client.sent[x]? = some e) : Done s x e := by
  obtain ⟨positive, le⟩ := linked.wired.sent x e found
  rcases cut_or_session linked positive le (Nat.le_refl _) with ⟨g, lt, le', fresh⟩ | session
  · exact h.cut x e g found lt le' fresh
  · have first : s.client.generation ≠ 0 := by omega
    obtain ⟨_, dial', here, same, _⟩ := linked.current n current
    cases dial.symm.trans here
    have told := linked.told _ (Nat.pos_of_ne_zero first) (Nat.le_refl s.client.generation)
    have no : s.server.sessions.resume (s.sessionOf e)
        (s.server.sessions.states (s.sessionOf e)).resumeToken = none := by
      rw [System.sessionOf, ← session]
      exact refused _ (same.trans (linked.resume.trans (if_neg first)))
    rw [session] at told
    obtain ⟨over₀, gone⟩ := linked.attended.refused told no
    cases accepted : (s.served x).task with
    | some i =>
      obtain ⟨task, known, _⟩ := tasked.task x e i found accepted
      exact .ended task ((taskOf_eq accepted).trans known) (over₀ task (List.mem_of_getElem? known))
    | none =>
      obtain ⟨c, conn, _, named, mine⟩ := conn_of_sent linked found
      rcases gone _ c conn mine named with past | older
      · exact .unaccepted c accepted conn past
      · refine .superseded c conn older fun task known => ?_
        simp [System.taskOf, accepted] at known

end Sessions

section Fences

/-- With a fence of zero nothing of an older epoch is under way, and nothing given up on. -/
theorem calm_of_fence {a : Attachment} {tasks : List RequestTask} (counted : Counted a tasks)
    (clear : a.runningOlder + a.abandoned = 0) {task : RequestTask} (mem : task ∈ tasks) :
    (task.epoch < a.epoch → task.underWay = false) ∧
      (task.epoch = a.epoch → task.abandonedNow = false) := by
  constructor
  · intro older
    by_contra busy
    have : 0 < a.runningOlder := by
      rw [counted.runningOlder]
      exact List.countP_pos_iff.mpr ⟨task, mem, by simp [older, busy]⟩
    omega
  · intro current
    by_contra given
    have : 0 < a.abandoned := by
      rw [counted.abandoned]
      exact List.countP_pos_iff.mpr ⟨task, mem, by simp [current, given]⟩
    omega

/-- A change that its session's fence lets pass has only changes before it that are done. -/
theorem done_of_fence (linked : Linked s) (tasked : Tasked s) (h : Ordered s)
    (follows : Follows s x y e d) {task : RequestTask} (known : s.taskOf y d = some task)
    (current : task.epoch = s.server.sessions.epoch (s.sessionOf d))
    (clear : (s.server.sessions.states (s.sessionOf d)).attachment.runningOlder +
      (s.server.sessions.states (s.sessionOf d)).attachment.abandoned = 0)
    (written : d.stage.written = true) : Done s x e := by
  have found := follows.earlier
  obtain ⟨_, ⟨c, conn, epoch⟩, _⟩ := task_known tasked follows.later known
  obtain ⟨c₀, conn₀, _, named, mine⟩ := conn_of_sent linked follows.later
  cases conn.symm.trans conn₀
  obtain ⟨b, connX, _, namedX, mineX⟩ := conn_of_sent linked found
  have calm : s.sessionOf e = s.sessionOf d → ∀ earlier, s.taskOf x e = some earlier →
      (b.epoch < c.epoch → earlier.underWay = false) ∧
        (b.epoch = c.epoch → earlier.abandonedNow = false) := by
    intro session earlier knownX
    obtain ⟨mem, ⟨b', connX', epochX⟩, _⟩ := task_known tasked found knownX
    cases connX.symm.trans connX'
    rw [session] at mem
    have := calm_of_fence (linked.attended.sound.counted _) clear mem
    rw [epochX] at this
    have present := epoch.symm.trans current
    exact ⟨fun lt => this.1 (Nat.lt_of_lt_of_eq lt present),
      fun same => this.2 (same.trans present)⟩
  rcases h.separated x y e d follows with older | ⟨same, unwritten | heard⟩ | ⟨_, unwritten⟩
  · obtain ⟨positive, _⟩ := linked.wired.sent x e found
    obtain ⟨_, le⟩ := linked.wired.sent y d follows.later
    rcases cut_or_session linked positive (Nat.le_of_lt older) le with ⟨g, lt, le', fresh⟩ | session
    · exact h.cut x e g found lt (le'.trans le) fresh
    · have session' : s.sessionOf e = s.sessionOf d := session.symm
      have lt : b.epoch < c.epoch :=
        linked.rise _ _ b c connX conn namedX named (by rw [mineX, mine, session'])
          (linked.order _ _ positive older le)
      refine .superseded b connX ?_ fun earlier knownX => (calm session' earlier knownX).1 lt
      rw [session', ← current, epoch]
      exact lt
  · exact .unwritten (by rw [unwritten]; rfl) (.inl unwritten)
  · have session : s.sessionOf e = s.sessionOf d := by rw [System.sessionOf, same, System.sessionOf]
    have conns : s.connOf e = s.connOf d := by rw [System.connOf, same, System.connOf]
    rw [conns] at connX
    cases connX.symm.trans conn
    obtain ⟨earlier, knownX, settled⟩ := tasked.arrived x e found heard
    rcases settled with last | ⟨z, stage, abandoned⟩
    · exact .ended earlier knownX last
    · have given := (calm session earlier knownX).2 rfl
      obtain ⟨_, _, decoded⟩ := task_known tasked found knownX
      have ordered : z.ordered = true := (decoded z stage).2.trans follows.change
      simp [RequestTask.abandonedNow, stage, ordered, abandoned] at given
  · rw [written] at unwritten
    cases unwritten

end Fences

section Invariant

/-- Two exchanges in order were so before the step, or the step made the later one. -/
theorem follows_before {e' d' : Sent} (linked : Linked s) (moved : Steps s action t)
    (h : Follows t x y e' d') :
    (∃ e d, Follows s x y e d ∧ Carries s t e e' ∧ Carries s t d d') ∨
      ∃ e, s.client.sent[x]? = some e ∧ Carries s t e e' ∧ e.stage.awaited = false ∧
        Fresh s.client d' ∧ y = s.client.sent.length ∧
        Reattaches (s.client.attached d'.generation) (t.client.attached d'.generation) ∧
        t.served = s.served := by
  have carried : ∀ {e : Sent}, s.client.sent[x]? = some e → Carries s t e e' := by
    intro e here
    obtain ⟨e₀, there, carries⟩ := exchange_carries linked moved here
    cases there.symm.trans h.earlier
    exact carries
  rcases exchange_of linked moved h.later with ⟨d, here, carries⟩ | ⟨last, fresh, kept, _, served⟩
  · left
    have before := h.before
    rw [carries.evolves.overBefore] at before
    obtain ⟨_, e, hereX, _⟩ := linked.called.overBefore y d x here before
    have carriesX := carried hereX
    refine ⟨e, d, ⟨hereX, here, before, ?_, ?_, ?_⟩, carriesX, carries⟩
    · rw [← carries.evolves.origin]
      exact h.waits
    · rw [← carriesX.evolves.req]
      exact h.change
    · rw [← carries.evolves.req]
      exact h.changes
  · right
    have before := h.before
    rw [fresh.overBefore] at before
    obtain ⟨e, hereX, settled⟩ := mem_overNow.mp before
    exact ⟨e, hereX, carried hereX, settled, fresh, last, kept, served⟩

theorem answered_step (linked : Linked s) (h : Ordered s) (moved : Steps s action t) {e' : Sent}
    (found : t.client.sent[x]? = some e') (changes : e'.req.changes = true)
    (closed : e'.stage = .closed) :
    (t.served x).arrived.isSome = true ∨ (t.client.attached e'.generation).up = false := by
  rcases exchange_of linked moved found with ⟨e, here, carries⟩ | ⟨_, fresh, _⟩
  · rw [carries.evolves.req] at changes
    have before : (s.served x).arrived.isSome = true ∨
        (s.client.attached e.generation).up = false := by
      by_cases already : e.stage = .closed
      · exact h.answered x e here changes already
      · exact heard_of_closes linked moved here found changes already closed
    rcases before with heard | down
    · exact .inl (arrived_keeps moved heard)
    · exact .inr (carries.down down)
  · rw [fresh.stage] at closed
    cases closed

theorem cut_step (linked : Linked s) (linked' : Linked t) (tasked : Tasked s) (h : Ordered s)
    (moved : Steps s action t) {e' : Sent} {g : ℕ} (found : t.client.sent[x]? = some e')
    (lt : e'.generation < g) (le : g ≤ t.client.generation)
    (fresh : (t.client.attached g).resumed = false) : Done t x e' := by
  rcases exchange_of linked moved found with ⟨e, here, carries⟩ | ⟨_, new, _⟩
  · refine Done.step linked tasked moved here found carries ?_
    rw [carries.evolves.generation] at lt
    rcases attached_origin moved le with ⟨old, same⟩ | ⟨rfl, n, k, dial, c, takes⟩
    · exact h.cut x e g here lt old (same.resumed ▸ fresh)
    · -- The connection is the one that the client has just taken.
      rw [takes.attached] at fresh
      exact h.dialed n dial k c takes.current takes.found takes.conn takes.here fresh x e here
  · refine .unwritten (by rw [new.stage]; rfl) (.inr ?_)
    by_contra up
    have := (linked'.wired.up _ (by simpa using up)).1
    omega

theorem done_of_fresh (linked : Linked t) {n : ℕ} (current : t.current = some n)
    (fresh : Fresh s.client e) : Done t x e := by
  refine .unwritten (by rw [fresh.stage]; rfl) (.inr ?_)
  by_contra up
  exact (linked.wired.up _ (by simpa using up)).2 (linked.current n current).1

theorem dialed_step (linked : Linked s) (linked' : Linked t) (tasked : Tasked s) (h : Ordered s)
    (moved : Steps s action t) {n : ℕ} {dial : Dial} {k : ℕ} {c : ConnTask}
    (current : t.current = some n) (dials : t.dials[n]? = some dial) (conn : dial.conn = some k)
    (hereC : t.server.conns[k]? = some c) (fresh : c.resumed = false) {e' : Sent}
    (found : t.client.sent[x]? = some e') : Done t x e' := by
  rcases exchange_of linked moved found with ⟨e, here, carries⟩ | ⟨_, new, _⟩
  · refine Done.step linked tasked moved here found carries ?_
    -- The dial's connection was there before, so it was already one to a new session.
    have before : s.current = some n → s.dials[n]? = some dial → Done s x e := by
      intro current dials
      obtain ⟨c₀, hereC₀, _⟩ := linked.greeted n dial k dials conn
      obtain ⟨c₁, hereC₁, keeps⟩ := conn_keeps moved hereC₀
      cases hereC.symm.trans hereC₁
      exact h.dialed n dial k c₀ current dials conn hereC₀ (keeps.resumed.symm.trans fresh) x e here
    cases moved with
    | dials =>
      cases current
      simp only [List.getElem?_concat_length, Option.some.injEq] at dials
      subst dials
      cases conn
    | hangsUp | connects => cases current
    | greets _ _ _ dialed greets =>
      rcases of_lookup_write dials with ⟨rfl, rfl⟩ | ⟨_, old⟩
      · cases conn
        cases greets with
        | resumes =>
          simp only [List.getElem?_concat_length, Option.some.injEq] at hereC
          rw [← hereC] at fresh
          cases fresh
        | waits refused => exact done_of_refused linked tasked h current dialed refused here
      · exact before current old
    | _ => exact before current dials
  · exact done_of_fresh linked' current new

theorem separated_step {e' d' : Sent} (linked : Linked s) (linked' : Linked t) (h : Ordered s)
    (moved : Steps s action t) (follows : Follows t x y e' d') : Separated t x e' d' := by
  rcases follows_before linked moved follows with ⟨e, d, before, carriesX, carries⟩ |
    ⟨e, here, carriesX, settled, fresh, last, kept, served⟩
  · rw [Separated, carriesX.evolves.generation, carries.evolves.generation]
    rcases h.separated x y e d before with older | ⟨same, unwritten | heard⟩ | ⟨down, unwritten⟩
    · exact .inl older
    · exact .inr (.inl ⟨same, .inl (carriesX.evolves.unwritten unwritten)⟩)
    · exact .inr (.inl ⟨same, .inr (arrived_keeps moved heard)⟩)
    · have down' := carries.down down
      rw [carries.evolves.generation] at down'
      exact .inr (.inr ⟨down', unwritten_keeps moved before.later follows.later down unwritten⟩)
  · have unsent : d'.stage.written = false := by
      rw [fresh.stage]
      rfl
    rw [Separated, carriesX.evolves.generation]
    rcases Nat.lt_trichotomy e.generation d'.generation with older | same | newer
    · exact .inl older
    · -- On its own connection a change waits for the answers to those given up on.
      have calm : e.stage ≠ .cancelling := by
        intro cancelling
        have none := fresh.clear follows.changes follows.waits
        rw [linked.wired.cancels] at none
        have := List.countP_eq_zero.mp none e (List.mem_of_getElem? here)
        simp [pending, cancelling, same] at this
      cases stage : e.stage with
      | writing | awaiting => simp [stage, SentStage.awaited] at settled
      | cancelling => exact absurd stage calm
      | unwritten => exact .inr (.inl ⟨same, .inl (carriesX.evolves.unwritten stage)⟩)
      | closed =>
        have change := follows.change
        rw [carriesX.evolves.req] at change
        rcases h.answered x e here change stage with heard | down
        · exact .inr (.inl ⟨same, .inr (arrived_keeps moved heard)⟩)
        · have down' := carriesX.down down
          rw [carriesX.evolves.generation, same] at down'
          exact .inr (.inr ⟨down', unsent⟩)
    · refine .inr (.inr ⟨?_, unsent⟩)
      by_contra up
      have := (linked'.wired.up _ (by simpa using up)).1
      have := (linked'.wired.sent x e' follows.earlier).2
      rw [carriesX.evolves.generation] at this
      omega

/-- A change that is active was so before the step, or its session's fence has just let it pass. -/
theorem active_before {d' : Sent} (linked : Linked s) (tasked : Tasked s) (moved : Steps s action t)
    (found : s.client.sent[y]? = some d) (carries : Carries s t d d') (ordered : d.req.changes = true)
    (active : Active t y d') :
    Active s y d ∨
      ∃ task, s.taskOf y d = some task ∧
        task.epoch = s.server.sessions.epoch (s.sessionOf d) ∧
        (s.server.sessions.states (s.sessionOf d)).attachment.runningOlder +
          (s.server.sessions.states (s.sessionOf d)).attachment.abandoned = 0 ∧
        d.stage.written = true := by
  rcases active with begins | ⟨epoch, z', known', ready, current'⟩
  · exact .inl (begun_before linked tasked moved found carries ordered begins)
  · rcases task_before linked tasked moved found carries known' with accepted | ⟨task, known, steps⟩
    · cases accepted
    · obtain ⟨mem, _, decoded⟩ := task_known tasked found known
      -- The session has not moved on since the request was made.
      have current : task.epoch = s.server.sessions.epoch (s.sessionOf d) := by
        have made := linked.attended.sound.dated.requests _ task mem
        have grows := epoch_le moved (session_given linked found)
        have same := steps.epoch
        rw [carries.session] at current'
        simp only at same
        omega
      cases steps with
      | stays => exact .inl (.inr ⟨epoch, z', known, ready, current⟩)
      | decodes _ written =>
        refine .inr ⟨_, known, current, ?_, written⟩
        rw [fencing_new, ordered] at ready
        by_contra held
        have fence : 0 < (s.server.sessions.states (s.sessionOf d)).attachment.runningOlder +
            (s.server.sessions.states (s.sessionOf d)).attachment.abandoned := by omega
        have here : (s.server.sessions.states (s.sessionOf d)).attachment.epoch = epoch :=
          current.symm
        simp [here, fence] at ready
      | moves _ z _ _ move =>
        cases move with
        | stays => exact .inl (.inr ⟨epoch, z', known, ready, current⟩)
        | drains _ _ clear => exact .inr ⟨_, known, current, clear, (decoded z rfl).1⟩
        | starts | startsUnordered | abandonsCurrent | abandonsOlder => cases ready
        | endsUnbegun _ _ ends => rcases ends with rfl | ⟨rfl, _⟩ | rfl <;> cases ready
        | finishesUnordered | finishesCurrent | finishesAbandoned | finishesOlder => cases ready

theorem done_step {e' d' : Sent} (linked : Linked s) (tasked : Tasked s) (h : Ordered s)
    (moved : Steps s action t) (follows : Follows t x y e' d') (active : Active t y d') :
    Done t x e' := by
  rcases follows_before linked moved follows with ⟨e, d, before, carriesX, carries⟩ |
    ⟨e, _, _, _, _, last, _, served⟩
  · refine Done.step linked tasked moved before.earlier follows.earlier carriesX ?_
    rcases active_before linked tasked moved before.later carries before.changes active with
      already | ⟨task, known, current, clear, written⟩
    · exact h.done x y e d before already
    · exact done_of_fence linked tasked h before known current clear written
  · -- The server knows nothing yet of an exchange that was just made.
    have none : t.taskOf y d' = none := by
      rw [System.taskOf, served, (tasked.beyond y (by omega)).1]
      rfl
    rcases active with begins | ⟨_, _, known, _⟩
    · obtain ⟨_, _, known, _⟩ := of_begun begins
      rw [none] at known
      cases known
    · rw [none] at known
      cases known

namespace Ordered

theorem new (capacity : ℕ) : Ordered (.new capacity) where
  answered := by simp [System.new, Client.new]
  cut := by simp [System.new, Client.new]
  dialed := by simp [System.new]
  separated := fun x y e d follows => by
    have := follows.earlier
    simp [System.new, Client.new] at this
  done := fun x y e d follows => by
    have := follows.earlier
    simp [System.new, Client.new] at this

theorem step (h : Ordered s) (linked : Linked s) (tasked : Tasked s) (moved : Steps s action t) :
    Ordered t where
  answered := fun _ _ found changes closed => answered_step linked h moved found changes closed
  cut := fun _ _ _ found lt le fresh =>
    cut_step linked (linked.step moved) tasked h moved found lt le fresh
  dialed := fun _ _ _ _ current dials conn here fresh _ _ found =>
    dialed_step linked (linked.step moved) tasked h moved current dials conn here fresh found
  separated := fun _ _ _ _ follows => separated_step linked (linked.step moved) h moved follows
  done := fun _ _ _ _ follows active => done_step linked tasked h moved follows active

end Ordered

/-- All that is known of the client and the server together in every state they reach. -/
structure Joint (s : System) : Prop where
  linked : Linked s
  tasked : Tasked s
  ordered : Ordered s

theorem joint_of_reachable {capacity : ℕ} (h : (Protocol.machine capacity).Reachable s) : Joint s := by
  refine Machine.Reachable.invariant (P := Joint) ?_ ?_ h
  · exact ⟨.new capacity, .new capacity, .new capacity⟩
  · intro s action t joint moves
    have moved := step_steps moves
    exact ⟨joint.linked.step moved, joint.tasked.step joint.linked moved,
      joint.ordered.step joint.linked joint.tasked moved⟩

end Invariant

end JackalopeFs.ChangeOrder
