import JackalopeFs.ServedExchanges

/-! # Changes that can do nothing more

A change is done once it cannot run at the server now or later: its frame never went
out whole, its connection will accept no more streams, its request has ended, or a
newer connection has taken the session over while it was not under way.  A change that
is done stays done, whatever the client, the server and the network do next.
-/

namespace JackalopeFs.FinishedExchanges

open ClientCalls ClientConnections ClientMachine ClientTasks IndexedCells Protocol ProtocolLinks
open ServedExchanges SessionAttendance SessionExchange SessionOwnership SessionTable TransitionRuns
open WireRequests

variable {s t : System} {x : ℕ} {e e' : Sent} {action : Protocol.Action}

/-- The exchange can neither run nor begin to, now or later. -/
inductive Done (s : System) (x : ℕ) (e : Sent) : Prop where
  | unwritten (unwritten : e.stage.written = false)
      (stays : e.stage = .unwritten ∨ (s.client.attached e.generation).up = false) : Done s x e
  | unaccepted (c : ConnTask) (none : (s.served x).task = none)
      (conn : s.server.conns[s.connOf e]? = some c) (gone : past c.stage = true) : Done s x e
  | ended (task : RequestTask) (known : s.taskOf x e = some task) (last : ended task = true) :
      Done s x e
  | superseded (c : ConnTask) (conn : s.server.conns[s.connOf e]? = some c)
      (older : c.epoch < s.server.sessions.epoch (s.sessionOf e))
      (idle : ∀ task, s.taskOf x e = some task → task.underWay = false) : Done s x e

/-- The request of the exchange has begun at the server, whether or not it has finished. -/
def begun (s : System) (x : ℕ) (e : Sent) : Bool :=
  match s.phaseOf x e with
  | some .running | some .abandoned | some .finished => true
  | _ => false

section Phases

variable {task : RequestTask} {z : Exchange} {epoch : ℕ}

theorem phaseOf_eq (known : s.taskOf x e = some ⟨epoch, .exchange z⟩) :
    s.phaseOf x e = some z.phase := by
  simp [System.phaseOf, known]

theorem of_phaseOf {phase : PhaseExchange} (h : s.phaseOf x e = some phase) :
    ∃ epoch z, s.taskOf x e = some ⟨epoch, .exchange z⟩ ∧ z.phase = phase := by
  obtain ⟨⟨epoch, stage⟩, known, h⟩ := Option.bind_eq_some_iff.mp h
  cases stage with
  | accepted | undecoded => cases h
  | exchange z => exact ⟨epoch, z, known, Option.some.inj h⟩

theorem of_begun (h : begun s x e = true) :
    ∃ epoch z, s.taskOf x e = some ⟨epoch, .exchange z⟩ ∧
      (z.phase = .running ∨ z.phase = .abandoned ∨ z.phase = .finished) := by
  unfold begun at h
  split at h
  · rename_i phase
    obtain ⟨epoch, z, known, phase⟩ := of_phaseOf phase
    exact ⟨epoch, z, known, .inl phase⟩
  · rename_i phase
    obtain ⟨epoch, z, known, phase⟩ := of_phaseOf phase
    exact ⟨epoch, z, known, .inr (.inl phase)⟩
  · rename_i phase
    obtain ⟨epoch, z, known, phase⟩ := of_phaseOf phase
    exact ⟨epoch, z, known, .inr (.inr phase)⟩
  · cases h

theorem begun_of_phase (known : s.taskOf x e = some ⟨epoch, .exchange z⟩)
    (phase : z.phase = .running ∨ z.phase = .abandoned ∨ z.phase = .finished) :
    begun s x e = true := by
  rcases phase with phase | phase | phase <;> simp [begun, phaseOf_eq known, phase]

theorem task_known (tasked : Tasked s) (found : s.client.sent[x]? = some e)
    (known : s.taskOf x e = some task) :
    task ∈ (s.server.sessions.states (s.sessionOf e)).requests ∧
      (∃ c, s.server.conns[s.connOf e]? = some c ∧ task.epoch = c.epoch) ∧
      ∀ z, task.stage = .exchange z → e.stage.written = true ∧ z.ordered = e.req.changes := by
  obtain ⟨i, accepted, known⟩ := Option.bind_eq_some_iff.mp known
  obtain ⟨task', known', conn, decoded⟩ := tasked.task x e i found accepted
  cases known.symm.trans known'
  exact ⟨List.mem_of_getElem? known, conn, decoded⟩

theorem task_before {task' : RequestTask} (linked : Linked s)
    (tasked : Tasked s) (moved : Steps s action t) (found : s.client.sent[x]? = some e)
    (carries : Carries s t e e') (known : t.taskOf x e' = some task') :
    task'.stage = .accepted ∨
      ∃ task, s.taskOf x e = some task ∧
        TaskSteps (s.server.sessions.states (s.sessionOf e)).attachment e.req.changes
          e.stage.written task task' := by
  cases before : (s.served x).task with
  | none =>
    left
    obtain ⟨i, accepted, known⟩ := Option.bind_eq_some_iff.mp known
    obtain ⟨d, c, here, _, _, _, _, _, request⟩ := accepted_step linked moved before accepted
    cases here.symm.trans found
    rw [carries.session] at known
    cases known.symm.trans request
    rfl
  | some i =>
    right
    obtain ⟨task, here, _⟩ := tasked.task x e i found before
    have here' : s.taskOf x e = some task := (taskOf_eq before).trans here
    obtain ⟨new, known', steps⟩ := Tasked.taskOf_step linked tasked moved found carries here'
    cases known.symm.trans known'
    exact ⟨task, here', steps⟩

end Phases

/-- A request of an epoch that its session has left does not come under way. -/
theorem idle_step {a : Attachment} {ordered whole : Bool} {task task' : RequestTask}
    (steps : TaskSteps a ordered whole task task') (idle : task.underWay = false)
    (older : task.epoch < a.epoch) : task'.underWay = false := by
  cases steps with
  | stays => exact idle
  | undecodes => rfl
  | decodes epoch =>
    rcases @fencing_unbegun a epoch ordered with phase | phase <;>
      simp [RequestTask.underWay, Exchange.guarded, phase]
  | moves _ _ _ _ move =>
    simp only [RequestTask.underWay] at idle ⊢
    cases move with
    | stays => exact idle
    | starts =>
      simp only at older
      omega
    | startsUnordered unordered => simp [unordered]
    | drains => simp [Exchange.guarded]
    | abandonsCurrent ordered' running | abandonsOlder ordered' running =>
      simp [ordered', running, Exchange.guarded] at idle
    | endsUnbegun _ _ ends =>
      rcases ends with rfl | ⟨rfl, _⟩ | rfl <;> simp [Exchange.endAs, Exchange.guarded]
    | finishesUnordered | finishesCurrent | finishesAbandoned | finishesOlder =>
      simp [Exchange.endAs, Exchange.guarded]

namespace Done

theorem step (linked : Linked s) (tasked : Tasked s)
    (moved : Steps s action t) (found : s.client.sent[x]? = some e)
    (found' : t.client.sent[x]? = some e') (carries : Carries s t e e') (h : Done s x e) :
    Done t x e' := by
  cases h with
  | unwritten unwritten stays =>
    rcases stays with never | down
    · have never' := carries.evolves.unwritten never
      exact .unwritten (by rw [never']; rfl) (.inl never')
    · exact .unwritten (unwritten_keeps moved found found' down unwritten) (.inr (carries.down down))
  | unaccepted _ none conn gone =>
    obtain ⟨c', conn', keeps⟩ := conn_keeps moved conn
    refine .unaccepted c' ?_ (by rw [carries.conn]; exact conn') (keeps.past gone)
    by_contra some
    obtain ⟨i, accepted⟩ := Option.ne_none_iff_exists'.mp some
    obtain ⟨d, c₀, here, conn₀, attached, _⟩ := accepted_step linked moved none accepted
    cases here.symm.trans found
    cases conn.symm.trans conn₀
    rw [attached] at gone
    cases gone
  | ended task known last =>
    obtain ⟨task', known', steps⟩ := Tasked.taskOf_step linked tasked moved found carries known
    rw [steps.ended last] at known'
    exact .ended task known' last
  | superseded _ conn older idle =>
    obtain ⟨c₀, conn₀, _, named, _⟩ := conn_of_sent linked found
    cases conn.symm.trans conn₀
    obtain ⟨c', conn', keeps⟩ := conn_keeps moved conn
    refine .superseded c' (by rw [carries.conn]; exact conn') ?_ fun task' known' => ?_
    · rw [(keeps.same named).2, carries.session]
      exact Nat.lt_of_lt_of_le older (epoch_le moved (session_given linked found))
    · rcases task_before linked tasked moved found carries known' with accepted |
        ⟨task, known, steps⟩
      · simp [RequestTask.underWay, accepted]
      · obtain ⟨_, ⟨c₁, conn₁, epoch⟩, _⟩ := task_known tasked found known
        cases conn.symm.trans conn₁
        exact idle_step steps (idle task known) (by rw [epoch]; exact older)

theorem not_ready (tasked : Tasked s) (found : s.client.sent[x]? = some e) (h : Done s x e)
    {epoch : ℕ} {z : Exchange} (known : s.taskOf x e = some ⟨epoch, .exchange z⟩)
    (ready : z.phase = .ready) : epoch ≠ s.server.sessions.epoch (s.sessionOf e) := by
  obtain ⟨_, ⟨c₀, conn₀, same⟩, decoded⟩ := task_known tasked found known
  cases h with
  | unwritten unwritten =>
    rw [(decoded z rfl).1] at unwritten
    cases unwritten
  | unaccepted _ none =>
    simp [System.taskOf, none] at known
  | ended _ known' last =>
    cases known.symm.trans known'
    simp [SessionAttendance.ended, ready, terminal] at last
  | superseded _ conn =>
    cases conn.symm.trans conn₀
    simp only at same
    omega

section

variable (tasked : Tasked s) (found : s.client.sent[x]? = some e) (ordered : e.req.changes = true) (h : Done s x e)

include tasked found ordered h

theorem not_guarded {epoch : ℕ} {z : Exchange}
    (known : s.taskOf x e = some ⟨epoch, .exchange z⟩) : z.guarded = false := by
  obtain ⟨_, _, decoded⟩ := task_known tasked found known
  cases h with
  | unwritten unwritten =>
    rw [(decoded z rfl).1] at unwritten
    cases unwritten
  | unaccepted _ none =>
    simp [System.taskOf, none] at known
  | ended _ known' =>
    cases known.symm.trans known'
    cases phase : z.phase <;> simp_all [SessionAttendance.ended, terminal, Exchange.guarded]
  | superseded _ _ _ idle =>
    have := idle _ known
    simpa [RequestTask.underWay, (decoded z rfl).2, ordered] using this

theorem not_runs : s.runs x e = false := by
  by_contra runs
  have phase : s.phaseOf x e = some .running ∨ s.phaseOf x e = some .abandoned := by
    simpa [System.runs, or_iff_not_imp_left] using runs
  rcases phase with phase | phase
  · obtain ⟨epoch, z, known, phase⟩ := of_phaseOf phase
    simpa [Exchange.guarded, phase] using h.not_guarded tasked found ordered known
  · obtain ⟨epoch, z, known, phase⟩ := of_phaseOf phase
    simpa [Exchange.guarded, phase] using h.not_guarded tasked found ordered known

theorem finished (begins : begun s x e = true) :
    s.phaseOf x e = some .finished := by
  obtain ⟨epoch, z, known, phase⟩ := of_begun begins
  have unguarded := h.not_guarded tasked found ordered known
  rw [phaseOf_eq known]
  rcases phase with phase | phase | phase
  · simp [Exchange.guarded, phase] at unguarded
  · simp [Exchange.guarded, phase] at unguarded
  · rw [phase]

end

end Done

/-- A change has begun before the step, or was ready at the epoch of its session. -/
theorem begun_before (linked : Linked s) (tasked : Tasked s)
    (moved : Steps s action t) (found : s.client.sent[x]? = some e) (carries : Carries s t e e')
    (ordered : e.req.changes = true) (h : begun t x e' = true) :
    begun s x e = true ∨
      ∃ epoch z, s.taskOf x e = some ⟨epoch, .exchange z⟩ ∧ z.phase = .ready ∧
        epoch = s.server.sessions.epoch (s.sessionOf e) := by
  obtain ⟨epoch, z', known', phase⟩ := of_begun h
  rcases task_before linked tasked moved found carries known' with accepted | ⟨task, known, steps⟩
  · cases accepted
  · cases steps with
    | stays => exact .inl (begun_of_phase known phase)
    | decodes =>
      rcases @fencing_unbegun (s.server.sessions.states (s.sessionOf e)).attachment epoch
        e.req.changes with unbegun | unbegun <;> simp [unbegun] at phase
    | moves _ z _ _ move =>
      obtain ⟨_, _, decoded⟩ := task_known tasked found known
      have changes : z.ordered = true := (decoded z rfl).2.trans ordered
      cases move with
      | stays => exact .inl (begun_of_phase known phase)
      | starts _ ready current => exact .inr ⟨epoch, z, known, ready, current.symm⟩
      | startsUnordered unordered => simp [changes] at unordered
      | drains => simp at phase
      | abandonsCurrent _ running | abandonsOlder _ running | finishesCurrent _ running =>
        exact .inl (begun_of_phase known (.inl running))
      | endsUnbegun _ _ ends =>
        rcases ends with rfl | ⟨rfl, _⟩ | rfl <;> simp [Exchange.endAs] at phase
      | finishesUnordered unordered => simp [changes] at unordered
      | finishesAbandoned _ abandoned =>
        exact .inl (begun_of_phase known (.inr (.inl abandoned)))
      | finishesOlder _ guarded =>
        rcases (by simpa [Exchange.guarded] using guarded :
          z.phase = .running ∨ z.phase = .abandoned) with running | abandoned
        · exact .inl (begun_of_phase known (.inl running))
        · exact .inl (begun_of_phase known (.inr (.inl abandoned)))

end JackalopeFs.FinishedExchanges
