import JackalopeFs.ProtocolLinks

/-! # The server's requests for the client's exchanges

An exchange that the server accepted is one request of the session it was sent to, at
the epoch of its connection, and no other exchange is that request.  It is decoded
only if the client wrote it whole, and the client hears of it only once it has ended
or was abandoned.  The module says once what a step can do to an exchange and to its
request, and derives these facts from that.
-/

namespace JackalopeFs.ServedExchanges

open ClientCalls ClientConnections ClientMachine ClientTasks IndexedCells Option Protocol ProtocolLinks
open SessionAttendance SessionExchange SessionOwnership SessionTable TransitionRuns WireRequests

variable {s t : System} {x : ℕ} {e : Sent} {action : Protocol.Action}

section Exchanges

/-- What a step leaves of an exchange, its session and its connection. -/
structure Carries (s t : System) (e e' : Sent) : Prop where
  evolves : Evolves e e'
  session : t.sessionOf e' = s.sessionOf e
  conn : t.connOf e' = s.connOf e
  up : (t.client.attached e'.generation).up = true → (s.client.attached e.generation).up = true

theorem Carries.same (client : t.client = s.client) (e : Sent) : Carries s t e e :=
  ⟨.refl e, by rw [System.sessionOf, client, System.sessionOf],
    by rw [System.connOf, client, System.connOf], by rw [client]; exact id⟩

variable {e' : Sent}

theorem Carries.client {made : ClientTasks.Action} (linked : Linked s)
    (moved : ClientTasks.Steps s.client made t.client) (found : s.client.sent[x]? = some e)
    (evolves : Evolves e e') : Carries s t e e' := by
  have kept := attached_reattaches moved (linked.wired.sent x e found).2
  refine ⟨evolves, ?_, ?_, ?_⟩
  · rw [System.sessionOf, evolves.generation]
    exact kept.session
  · rw [System.connOf, evolves.generation]
    exact kept.conn
  · rw [evolves.generation]
    exact kept.up

theorem exchange_carries (linked : Linked s) (moved : Steps s action t)
    (found : s.client.sent[x]? = some e) :
    ∃ e', t.client.sent[x]? = some e' ∧ Carries s t e e' := by
  rcases client_moves moved with same | ⟨⟨made, moved⟩, _⟩
  · exact ⟨e, same ▸ found, .same same e⟩
  · obtain ⟨e', there, evolves⟩ := sent_evolves linked.wired moved x e found
    exact ⟨e', there, .client linked moved found evolves⟩

theorem exchange_of (linked : Linked s) (moved : Steps s action t)
    (found : t.client.sent[x]? = some e') :
    (∃ e, s.client.sent[x]? = some e ∧ Carries s t e e') ∨
      (x = s.client.sent.length ∧ Fresh s.client e' ∧
        Reattaches (s.client.attached e'.generation) (t.client.attached e'.generation) ∧
        t.server = s.server ∧ t.served = s.served) := by
  rcases client_moves moved with same | ⟨⟨made, moved⟩, server, served⟩
  · exact .inl ⟨e', same ▸ found, .same same e'⟩
  · rcases sent_of_evolves linked.marked linked.wired linked.called.changes moved x e' found with
      ⟨e, here, evolves⟩ | ⟨last, fresh⟩
    · exact .inl ⟨e, here, .client linked moved here evolves⟩
    · exact .inr ⟨last, fresh, attached_reattaches moved fresh.handed.2, server, served⟩

theorem Carries.down (carries : Carries s t e e')
    (down : (s.client.attached e.generation).up = false) :
    (t.client.attached e'.generation).up = false := by
  by_contra up
  rw [carries.up (by simpa using up)] at down
  cases down

theorem unwritten_keeps (moved : Steps s action t) (found : s.client.sent[x]? = some e)
    (found' : t.client.sent[x]? = some e') (down : (s.client.attached e.generation).up = false)
    (unwritten : e.stage.written = false) : e'.stage.written = false := by
  by_contra written
  rcases client_moves moved with same | ⟨⟨made, moved⟩, _⟩
  · rw [same] at found'
    cases found.symm.trans found'
    exact written unwritten
  · rw [up_of_written moved found found' unwritten (by simpa using written)] at down
    cases down

theorem conn_of_sent (linked : Linked s) (found : s.client.sent[x]? = some e) :
    ∃ c, s.server.conns[s.connOf e]? = some c ∧ acked c.stage = true ∧ c.stage ≠ .creating ∧
      c.session = s.sessionOf e := by
  obtain ⟨positive, le⟩ := linked.wired.sent x e found
  obtain ⟨c, here, written, session, _⟩ := linked.attached e.generation positive le
  refine ⟨c, here, written, fun creating => ?_, session⟩
  rw [creating] at written
  cases written

theorem session_given (linked : Linked s) (found : s.client.sent[x]? = some e) :
    s.sessionOf e ≤ s.server.sessions.nextId := by
  obtain ⟨positive, le⟩ := linked.wired.sent x e found
  exact linked.given positive le

/-- The session of a connection that the client took is one of this client's. -/
theorem ours_of_attached (linked : Linked s) {g : ℕ} (positive : 0 < g)
    (le : g ≤ s.client.generation) : s.ours (s.client.attached g).session = true := by
  obtain ⟨c, here, written, session, _, dialed⟩ := linked.attached g positive le
  obtain ⟨dial, mem, conn⟩ := List.any_eq_true.mp dialed
  rw [beq_iff_eq] at conn
  refine List.any_eq_true.mpr ⟨dial, mem, ?_⟩
  have named := named_of_acked written
  simp [conn, here, named, session]

theorem ours_of_sent (linked : Linked s) (found : s.client.sent[x]? = some e) :
    s.ours (s.sessionOf e) = true := by
  obtain ⟨positive, le⟩ := linked.wired.sent x e found
  exact ours_of_attached linked positive le

theorem epoch_le (moved : Steps s action t) {id : ℕ}
    (given : id ≤ s.server.sessions.nextId) :
    s.server.sessions.epoch id ≤ t.server.sessions.epoch id := by
  rcases server_moves moved with same | ⟨_, moved⟩
  · rw [same]
  · exact epoch_grows moved given

end Exchanges

section Requests

/-- What a step can do to the request of an exchange, `ordered` being whether the exchange is a change
and `whole` whether the client wrote it whole. -/
inductive TaskSteps (a : Attachment) (ordered whole : Bool) : RequestTask → RequestTask → Prop where
  | stays (task : RequestTask) : TaskSteps a ordered whole task task
  | undecodes (epoch : ℕ) : TaskSteps a ordered whole ⟨epoch, .accepted⟩ ⟨epoch, .undecoded⟩
  | decodes (epoch : ℕ) (written : whole = true) :
      TaskSteps a ordered whole ⟨epoch, .accepted⟩
        ⟨epoch, .exchange (fencing a epoch (.new ordered)).1⟩
  | moves (epoch : ℕ) (z : Exchange) (a' : Attachment) (z' : Exchange)
      (move : Moves a epoch z a' z') :
      TaskSteps a ordered whole ⟨epoch, .exchange z⟩ ⟨epoch, .exchange z'⟩

namespace TaskSteps

variable {a : Attachment} {ordered whole : Bool} {task task' : RequestTask}

theorem epoch (h : TaskSteps a ordered whole task task') : task'.epoch = task.epoch := by
  cases h <;> rfl

end TaskSteps

theorem move_ordered {a a' : Attachment} {epoch : ℕ} {z z' : Exchange}
    (move : Moves a epoch z a' z') : z'.ordered = z.ordered := by
  cases move <;> rfl

theorem requestStep_task {st st' : SessionState} {serving : Serving} {i : ℕ} {ordered whole : Bool}
    (written : serving = .decode → whole = true)
    (h : requestStep st (serving.on i ordered) = some st') :
    ∃ task task', st.requests[i]? = some task ∧ st'.requests = st.requests.set i task' ∧
      TaskSteps st.attachment ordered whole task task' := by
  have moves : ∀ {f : Attachment → ℕ → Exchange → Option (Attachment × Exchange)},
      st.move i f = some st' →
      (∀ epoch z a' z', f st.attachment epoch z = some (a', z') →
        Moves st.attachment epoch z a' z') →
      ∃ task task', st.requests[i]? = some task ∧ st'.requests = st.requests.set i task' ∧
        TaskSteps st.attachment ordered whole task task' := by
    intro f moved sound
    obtain ⟨epoch, z, a', z', found, made, rfl⟩ := SessionState.of_move moved
    exact ⟨_, _, found, rfl, .moves epoch z a' z' (sound epoch z a' z' made)⟩
  cases serving with
  | undecoded =>
    simp only [Serving.on, requestStep] at h
    split at h <;> cases h
    exact ⟨_, _, by assumption, rfl, .undecodes _⟩
  | decode =>
    simp only [Serving.on, requestStep] at h
    split at h <;> cases h
    exact ⟨_, _, by assumption, rfl, .decodes _ (written rfl)⟩
  | begin =>
    simp only [Serving.on, requestStep] at h
    refine moves h fun epoch z a' z' made => ?_
    obtain ⟨⟨_, _, run⟩, does, same⟩ := map_eq_some_iff.mp made
    cases same
    exact begin_moves does
  | abandon =>
    simp only [Serving.on, requestStep] at h
    refine moves h fun epoch z a' z' made => ?_
    obtain ⟨⟨_, _, verdict⟩, does, same⟩ := map_eq_some_iff.mp made
    cases same
    exact abandon_moves does
  | drained =>
    simp only [Serving.on, requestStep] at h
    refine moves h fun epoch z a' z' made => ?_
    obtain ⟨⟨_, on⟩, does, same⟩ := map_eq_some_iff.mp made
    cases same
    exact drained_moves does
  | stopped =>
    simp only [Serving.on, requestStep] at h
    refine moves h fun epoch z a' z' made => ?_
    obtain ⟨_, does, same⟩ := map_eq_some_iff.mp made
    cases same
    exact stopped_moves does
  | finish =>
    simp only [Serving.on, requestStep] at h
    refine moves h fun epoch z a' z' made => ?_
    split_ifs at made with guarded
    obtain ⟨⟨_, _, wakes⟩, does, same⟩ := map_eq_some_iff.mp made
    cases same
    exact guardDrop_moves guarded does

end Requests

/-- A request that nothing more is heard of than was heard: it has ended, or was abandoned. -/
def Settled (task : RequestTask) : Prop :=
  ended task = true ∨ ∃ z, task.stage = .exchange z ∧ z.phase = .abandoned

/-- Each accepted exchange is one request, and what is known of it on either side fits together. -/
structure Tasked (s : System) : Prop where
  beyond : ∀ x, s.client.sent.length ≤ x → (s.served x).task = none ∧ (s.served x).arrived = none
  task : ∀ (x : ℕ) (e : Sent) (i : ℕ), s.client.sent[x]? = some e → (s.served x).task = some i →
    ∃ task, (s.server.sessions.states (s.sessionOf e)).requests[i]? = some task ∧
      (∃ c, s.server.conns[s.connOf e]? = some c ∧ task.epoch = c.epoch) ∧
      ∀ z, task.stage = .exchange z → e.stage.written = true ∧ z.ordered = e.req.changes
  apart : ∀ (x y : ℕ) (e d : Sent) (i : ℕ), s.client.sent[x]? = some e →
    s.client.sent[y]? = some d → (s.served x).task = some i → (s.served y).task = some i →
    s.sessionOf e = s.sessionOf d → x = y
  arrived : ∀ (x : ℕ) (e : Sent), s.client.sent[x]? = some e → (s.served x).arrived.isSome = true →
    ∃ task, s.taskOf x e = some task ∧ Settled task

theorem taskOf_eq {i : ℕ} (accepted : (s.served x).task = some i) :
    s.taskOf x e = (s.server.sessions.states (s.sessionOf e)).requests[i]? := by
  simp [System.taskOf, accepted]

/-- What a step does to a request that an exchange has. -/
theorem task_step (linked : Linked s) (h : Tasked s)
    (moved : Steps s action t) (found : s.client.sent[x]? = some e) {i : ℕ} {task : RequestTask}
    (accepted : (s.served x).task = some i)
    (known : (s.server.sessions.states (s.sessionOf e)).requests[i]? = some task) :
    (t.served x).task = some i ∧
      ∃ task', (t.server.sessions.states (s.sessionOf e)).requests[i]? = some task' ∧
        TaskSteps (s.server.sessions.states (s.sessionOf e)).attachment e.req.changes
          e.stage.written task task' := by
  have given := session_given linked found
  -- A step for something else leaves the request where it is.
  have aside : ∀ {made : SessionTable.Action} {server : Server},
      SessionTable.Steps s.server made server → (∀ call, made ≠ .request (s.sessionOf e) call) →
      (server.sessions.states (s.sessionOf e)).requests[i]? = some task := by
    intro made server step request
    obtain ⟨more, requests⟩ := requests_grow step request given
    rw [requests, List.getElem?_append_left (lt_of_lookup known)]
    exact known
  cases moved with
  | greets _ resume _ _ greets =>
    exact ⟨accepted, task, aside (.greets resume greets) (by simp), .stays task⟩
  | creates _ _ _ _ _ step =>
    exact ⟨accepted, task, aside (SessionTable.step_steps step) (by simp), .stays task⟩
  | server _ _ permitted step =>
    refine ⟨accepted, task, aside (SessionTable.step_steps step) ?_, .stays task⟩
    rintro call rfl
    simp [System.permitsServer, ours_of_sent linked found] at permitted
  | accepts y _ _ _ unaccepted step =>
    have ne : x ≠ y := by
      rintro rfl
      rw [accepted] at unaccepted
      cases unaccepted
    refine ⟨?_, task, aside (SessionTable.step_steps step) (by simp), .stays task⟩
    simpa only [System.setServed, Function.update_of_ne ne] using accepted
  | serves y d j serving _ _ there accepted' permitted step =>
    refine ⟨(setServed_keeps Served.task (by rfl)).trans accepted, ?_⟩
    · by_cases session : s.sessionOf d = s.sessionOf e
      · obtain ⟨st, called, rfl⟩ := map_eq_some_iff.mp step
        have written : serving = .decode → d.stage.written = true := by
          rintro rfl
          simpa [System.permitsServing] using permitted
        obtain ⟨old, new, here, requests, steps⟩ := requestStep_task written called
        simp only [System.setServed, session, Function.update_self, requests]
        by_cases same : i = j
        · -- The request is that of `x` itself.
          subst same
          obtain rfl := h.apart x y e d i found there accepted accepted' session.symm
          cases found.symm.trans there
          cases known.symm.trans here
          exact ⟨new, lookup_write here, steps⟩
        · exact ⟨task, (lookup_write_of_ne same).trans known, .stays task⟩
      · refine ⟨task, aside (SessionTable.step_steps step) fun call same => ?_, .stays task⟩
        exact session (SessionTable.Action.request.inj same).1
  | works | delivers =>
    exact ⟨(setServed_keeps Served.task (by rfl)).trans accepted, task, known, .stays task⟩
  | _ => exact ⟨accepted, task, known, .stays task⟩

/-- A request appears for an exchange only where a stream is accepted on its connection. -/
theorem accepted_step (linked : Linked s) (moved : Steps s action t) {i : ℕ}
    (before : (s.served x).task = none) (after : (t.served x).task = some i) :
    ∃ e c, s.client.sent[x]? = some e ∧ s.server.conns[s.connOf e]? = some c ∧
      c.stage = .attached ∧ i = (s.server.sessions.states (s.sessionOf e)).requests.length ∧
      t.client = s.client ∧ t.server.conns = s.server.conns ∧
      (t.server.sessions.states (s.sessionOf e)).requests[i]? = some ⟨c.epoch, .accepted⟩ := by
  have kept : (t.served x).task ≠ (s.served x).task := by
    rw [before, after]
    simp
  cases moved with
  | serves | works | delivers => exact absurd (setServed_keeps Served.task (by rfl)) kept
  | accepts y d _ there _ step =>
    by_cases same : x = y
    · subst same
      simp only [System.setServed, Function.update_self, Option.some.injEq] at after
      obtain ⟨c, here, stage, rfl⟩ := of_onConn step
      obtain ⟨c', here', _, _, session⟩ := conn_of_sent linked there
      cases here.symm.trans here'
      refine ⟨d, c, there, here, stage, after.symm, rfl, rfl, ?_⟩
      simp [System.setServed, Sessions.update_states, session, ← after]
    · simp [System.setServed, same] at kept
  | _ => exact absurd rfl kept

theorem accepted_once (moved : Steps s action t) {y i j : ℕ}
    (beforeX : (s.served x).task = none) (beforeY : (s.served y).task = none)
    (afterX : (t.served x).task = some i) (afterY : (t.served y).task = some j) : x = y := by
  have only : ∀ z k, (s.served z).task = none → (t.served z).task = some k →
      ∃ served, t.served = Function.update s.served z served := by
    intro z k before after
    cases moved with
    | accepts w | serves w | works w | delivers w =>
      by_cases same : z = w
      · exact ⟨_, by rw [same]; rfl⟩
      · simp only [System.setWork, System.setServed, Function.update_of_ne same, before] at after
        cases after
    | _ => exact absurd after (by simp [before])
  obtain ⟨served, same⟩ := only x i beforeX afterX
  by_contra ne
  rw [same, Function.update_of_ne (Ne.symm ne), beforeY] at afterY
  cases afterY

theorem move_terminal {a a' : Attachment} {epoch : ℕ} {z z' : Exchange}
    (move : Moves a epoch z a' z') (last : terminal z.phase = true) : z' = z := by
  have unguarded : z.guarded = false := by
    cases phase : z.phase <;> simp_all [terminal, Exchange.guarded]
  cases move with
  | stays => rfl
  | starts _ ready | startsUnordered _ ready | drains ready | abandonsCurrent _ ready
  | abandonsOlder _ ready | finishesCurrent _ ready | finishesAbandoned _ ready =>
    simp [ready, terminal] at last
  | endsUnbegun _ unbegun =>
    rcases unbegun with phase | phase <;> simp [phase, terminal] at last
  | finishesUnordered _ guarded | finishesOlder _ guarded =>
    rw [unguarded] at guarded
    cases guarded

theorem TaskSteps.ended {a : Attachment} {ordered whole : Bool} {task task' : RequestTask}
    (h : TaskSteps a ordered whole task task') (last : ended task = true) : task' = task := by
  cases h with
  | stays => rfl
  | undecodes | decodes => cases last
  | moves _ _ _ _ move => rw [move_terminal move last]

theorem Settled.step {a : Attachment} {ordered whole : Bool} {task task' : RequestTask}
    (h : Settled task) (steps : TaskSteps a ordered whole task task') : Settled task' := by
  rcases h with last | ⟨z, stage, abandoned⟩
  · rw [steps.ended last]
    exact .inl last
  · cases steps with
    | stays => exact .inr ⟨z, stage, abandoned⟩
    | undecodes | decodes => cases stage
    | moves _ _ _ _ move =>
      cases stage
      cases move with
      | stays => exact .inr ⟨z, rfl, abandoned⟩
      | starts _ ready | startsUnordered _ ready | drains ready | abandonsCurrent _ ready
      | abandonsOlder _ ready =>
        rw [abandoned] at ready
        cases ready
      | endsUnbegun _ unbegun =>
        rcases unbegun with phase | phase <;> simp [abandoned] at phase
      | finishesUnordered | finishesCurrent | finishesAbandoned | finishesOlder =>
        exact .inl rfl

theorem answer_settled {whole : Bool} {task : RequestTask} {arrival : Arrival}
    (h : s.answer x whole task = some arrival) : Settled task := by
  obtain ⟨epoch, stage⟩ := task
  cases stage with
  | accepted => cases h
  | undecoded => exact .inl rfl
  | exchange z =>
    cases phase : z.phase with
    | held | ready | running => simp [System.answer, phase] at h
    | abandoned => exact .inr ⟨z, rfl, phase⟩
    | cancelled | superseded | dropped | finished =>
      exact .inl (by simp [SessionAttendance.ended, phase, terminal])

/-- What the client hears of an exchange stays heard; what is new of it the server has just said. -/
theorem arrived_step (moved : Steps s action t)
    (after : (t.served x).arrived.isSome = true) :
    (s.served x).arrived.isSome = true ∨
      t.client = s.client ∧ t.server = s.server ∧ (t.served x).task = (s.served x).task ∧
        ∃ e task, s.client.sent[x]? = some e ∧ s.taskOf x e = some task ∧ Settled task := by
  cases moved with
  | accepts | serves | works =>
    exact .inl ((setServed_keeps (Option.isSome ∘ Served.arrived) (by rfl)).symm.trans after)
  | delivers y d _ task _ there known answers =>
    by_cases same : x = y
    · subst same
      refine .inr ⟨rfl, rfl, ?_, d, task, there, known, answer_settled answers⟩
      simp [System.setServed]
    · left
      simpa [System.setServed, same] using after
  | _ => exact .inl after

namespace Tasked

theorem new (capacity : ℕ) : Tasked (.new capacity) where
  beyond := fun _ _ => ⟨rfl, rfl⟩
  task := by simp [System.new, Client.new]
  apart := by simp [System.new, Client.new]
  arrived := by simp [System.new, Client.new]

/-- The request of an exchange and what the two sides know of it, after a step. -/
theorem task_of_step (linked : Linked s) (h : Tasked s)
    (moved : Steps s action t) {e' : Sent} {i : ℕ} (found : t.client.sent[x]? = some e')
    (accepted : (t.served x).task = some i) :
    ∃ e, s.client.sent[x]? = some e ∧ Carries s t e e' ∧
      ((s.served x).task = some i ∨
        (s.served x).task = none ∧
          i = (s.server.sessions.states (s.sessionOf e)).requests.length) ∧
      ∃ task', (t.server.sessions.states (t.sessionOf e')).requests[i]? = some task' ∧
        (∃ c, t.server.conns[t.connOf e']? = some c ∧ task'.epoch = c.epoch) ∧
        ∀ z, task'.stage = .exchange z → e'.stage.written = true ∧ z.ordered = e'.req.changes := by
  cases before : (s.served x).task with
  | none =>
    obtain ⟨e, c, here, conn, _, last, client, conns, request⟩ :=
      accepted_step linked moved before accepted
    have carries := Carries.same client e
    rw [client] at found
    obtain rfl : e' = e := Option.some.inj (found.symm.trans here)
    refine ⟨e', here, carries, .inr ⟨rfl, last⟩, ⟨c.epoch, .accepted⟩, ?_, ⟨c, ?_, rfl⟩,
      fun z stage => nomatch stage⟩
    · rw [carries.session]
      exact request
    · rw [carries.conn, conns]
      exact conn
  | some j =>
    have old : x < s.client.sent.length := by
      by_contra beyond
      rw [(h.beyond x (by omega)).1] at before
      cases before
    obtain ⟨e, here⟩ : ∃ e, s.client.sent[x]? = some e := ⟨_, List.getElem?_eq_getElem old⟩
    obtain ⟨d, there, carries⟩ := exchange_carries linked moved here
    cases there.symm.trans found
    obtain ⟨task, known, ⟨c, conn, epoch⟩, decoded⟩ := h.task x e j here before
    obtain ⟨same, task', known', steps⟩ := task_step linked h moved here before known
    cases accepted.symm.trans same
    obtain ⟨c₀, conn₀, _, named, _⟩ := conn_of_sent linked here
    cases conn.symm.trans conn₀
    obtain ⟨c', conn', keeps⟩ := conn_keeps moved conn
    refine ⟨e, here, carries, .inl rfl, task', ?_, ⟨c', ?_, ?_⟩, fun z stage => ?_⟩
    · rw [carries.session]
      exact known'
    · rw [carries.conn]
      exact conn'
    · rw [steps.epoch, epoch, (keeps.same named).2]
    · rw [carries.evolves.req]
      cases steps with
      | stays =>
        obtain ⟨written, ordered⟩ := decoded z stage
        exact ⟨carries.evolves.written written, ordered⟩
      | undecodes => cases stage
      | decodes _ written =>
        cases stage
        rw [fencing_new]
        exact ⟨carries.evolves.written written, rfl⟩
      | moves _ y _ _ move =>
        cases stage
        obtain ⟨written, ordered⟩ := decoded y rfl
        exact ⟨carries.evolves.written written, (move_ordered move).trans ordered⟩

/-- A request that an exchange had is the one it has, and it has taken a step. -/
theorem taskOf_step (linked : Linked s) (h : Tasked s)
    (moved : Steps s action t) {e' : Sent} {task : RequestTask}
    (found : s.client.sent[x]? = some e) (carries : Carries s t e e')
    (known : s.taskOf x e = some task) :
    ∃ task', t.taskOf x e' = some task' ∧
      TaskSteps (s.server.sessions.states (s.sessionOf e)).attachment e.req.changes
        e.stage.written task task' := by
  obtain ⟨i, accepted, known⟩ := bind_eq_some_iff.mp known
  obtain ⟨accepted', task', known', steps⟩ := task_step linked h moved found accepted known
  refine ⟨task', ?_, steps⟩
  rw [taskOf_eq accepted', carries.session]
  exact known'

theorem step (h : Tasked s) (linked : Linked s)
    (moved : Steps s action t) : Tasked t := by
  refine ⟨fun x beyond => ?_, fun x e' i found accepted => ?_,
    fun x y e' d' i foundX foundY acceptedX acceptedY session => ?_, fun x e' found heard => ?_⟩
  · have past : s.client.sent[x]? = none := by
      by_contra some
      obtain ⟨e, here⟩ := ne_none_iff_exists'.mp some
      obtain ⟨e', there, _⟩ := exchange_carries linked moved here
      have := lt_of_lookup there
      omega
    have le : s.client.sent.length ≤ x := List.getElem?_eq_none_iff.mp past
    refine ⟨?_, ?_⟩
    · by_contra some
      obtain ⟨i, accepted⟩ := ne_none_iff_exists'.mp some
      obtain ⟨e, c, here, _⟩ := accepted_step linked moved (h.beyond x le).1 accepted
      rw [past] at here
      cases here
    · by_contra some
      rcases arrived_step moved (isSome_iff_ne_none.mpr some) with heard | ⟨_, _, _, e, _, here, _⟩
      · rw [(h.beyond x le).2] at heard
        cases heard
      · rw [past] at here
        cases here
  · obtain ⟨e, here, carries, _, task⟩ := task_of_step linked h moved found accepted
    exact task
  · obtain ⟨e, hereX, carriesX, whenX, _⟩ := task_of_step linked h moved foundX acceptedX
    obtain ⟨d, hereY, carriesY, whenY, _⟩ := task_of_step linked h moved foundY acceptedY
    rw [carriesX.session, carriesY.session] at session
    -- A new request is behind all those that there were.
    have behind : ∀ (z : ℕ) (f : Sent), s.client.sent[z]? = some f → (s.served z).task = some i →
        i < (s.server.sessions.states (s.sessionOf f)).requests.length := by
      intro z f here accepted
      obtain ⟨task, known, _⟩ := h.task z f i here accepted
      exact lt_of_lookup known
    rcases whenX with oldX | ⟨newX, lastX⟩ <;> rcases whenY with oldY | ⟨newY, lastY⟩
    · exact h.apart x y e d i hereX hereY oldX oldY session
    · have := behind x e hereX oldX
      rw [session] at this
      omega
    · have := behind y d hereY oldY
      rw [← session] at this
      omega
    · exact accepted_once moved newX newY acceptedX acceptedY
  · rcases arrived_step moved heard with before | ⟨client, server, task, e, known, here, at', settled⟩
    · have old : x < s.client.sent.length := by
        by_contra beyond
        rw [(h.beyond x (by omega)).2] at before
        cases before
      obtain ⟨e, here⟩ : ∃ e, s.client.sent[x]? = some e := ⟨_, List.getElem?_eq_getElem old⟩
      obtain ⟨d, there, carries⟩ := exchange_carries linked moved here
      cases there.symm.trans found
      obtain ⟨task, known, settled⟩ := h.arrived x e here before
      obtain ⟨task', known', steps⟩ := taskOf_step linked h moved here carries known
      exact ⟨task', known', settled.step steps⟩
    · rw [client] at found
      obtain rfl : e' = e := Option.some.inj (found.symm.trans here)
      refine ⟨known, ?_, settled⟩
      rw [← at', System.taskOf, System.taskOf, task, server, (Carries.same client e').session]

end Tasked

end JackalopeFs.ServedExchanges
