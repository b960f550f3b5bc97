import JackalopeFs.OpenedHandles

/-! # What the current session has opened of the handles held

A new session has none of the client's handles.  Its reopen round is fixed once, with
the handles alive at that point, and the connection is published when every reopen of
the round has ended.  From then on every handle alive was opened on the session, by the
round or by a call that it answered.  This needs that no call records a handle after the
round was fixed which an older session opened for it; nothing in the client waits for
such a call.
-/

namespace JackalopeFs.ReopenedHandles

open ChangeOrder ClientCalls ClientConnections ClientHandles ClientMachine ClientTasks HandleIds
open IndexedCells OpenedHandles Protocol ProtocolLinks ServedExchanges TransitionRuns WireRequests

variable {s t : System} {fh : ℕ} {action : Protocol.Action}

def currentSession (s : System) : ℕ :=
  (s.client.attached s.client.generation).session

/-- The open of `fh`, by its call or a reopen, was answered on the current session. -/
def OpenedHere (s : System) (fh : ℕ) : Prop :=
  ∃ (x : ℕ) (e : Sent) (attr : Attr), s.client.sent[x]? = some e ∧ e.req.opens = some fh ∧
    s.sessionOf e = currentSession s ∧ e.outcome = some (.replied (.opened attr))

/-- The current session is new and its reopen round is not fixed yet. -/
def unfixed : Manager → Bool
  | .greeted resumed _ | .rooted resumed => !resumed
  | .mooted => true
  | .connecting | .reopening _ | .published => false

/-- An open of call `i` was answered on the current session. -/
def answeredHere (s : System) (i : ℕ) : Bool :=
  s.client.sent.any fun e =>
    e.origin == .call i && s.sessionOf e == currentSession s &&
      match e.outcome with
      | some (.replied (.opened _)) => true
      | _ => false

/-- A call records its handle in time: before the reopen round of the current session is fixed, or
when it was on this session that its open was answered. -/
def recordsInTime (s : System) : Protocol.Action → Bool
  | .client (.settle i true) =>
    match (s.client.calls[i]?).bind Call.result with
    | some (.ok (.opened _)) => unfixed s.client.manager || answeredHere s i
    | _ => true
  | _ => true

section Steps

theorem session_same (moved : ProtocolLinks.Steps s action t)
    (generation : t.client.generation = s.client.generation) :
    currentSession t = currentSession s := by
  rw [currentSession, generation]
  exact (attached_keeps moved (Nat.le_refl _)).session

theorem OpenedHere.step (linked : Linked s) (moved : ProtocolLinks.Steps s action t)
    (session : currentSession t = currentSession s) (h : OpenedHere s fh) : OpenedHere t fh := by
  obtain ⟨x, e, attr, found, opens, here, outcome⟩ := h
  obtain ⟨e', found', carries⟩ := exchange_carries linked moved found
  refine ⟨x, e', attr, found', ?_, ?_, carries.evolves.returned _ outcome⟩
  · rw [carries.evolves.req, opens]
  · rw [carries.session, here, session]

theorem replied_of_result {how : Exchanged} {resp : Response} (h : how.result = .ok resp) :
    how = .replied resp := by
  cases how with
  | replied =>
    cases h
    rfl
  | notSent | lost | protocol | gaveUp => cases h

/-- Why a handle is alive: it will be in the reopen round or has its reopen still to come, or it was
opened on the current session. -/
inductive Kept (s : System) (fh : ℕ) : Prop where
  | early (unfixed : unfixed s.client.manager = true) : Kept s fh
  | pending (round : ReopenRound) (reopening : s.client.manager = .reopening round)
      (pending : round.Pending fh) : Kept s fh
  | opened (here : OpenedHere s fh) : Kept s fh

theorem Kept.same (linked : Linked s) (moved : ProtocolLinks.Steps s action t)
    (client : t.client = s.client) (h : Kept s fh) : Kept t fh := by
  cases h with
  | early unfixed => exact .early (by rw [client, unfixed])
  | pending round reopening pending => exact .pending round (by rw [client, reopening]) pending
  | opened here => exact .opened (here.step linked moved (session_same moved (by rw [client])))

theorem Kept.client {made : ClientTasks.Action} {client : Client} (linked : Linked s)
    (numbered : Numbered s.client) (permitted : s.permits made = true)
    (moved : ClientTasks.Steps s.client made client) (before : fh ∈ s.client.handles.live)
    (alive : fh ∈ client.handles.live) (h : Kept s fh) : Kept { s with client := client } fh := by
  have joint : ProtocolLinks.Steps s (.client made) { s with client := client } :=
    .client made client rfl permitted moved
  cases h with
  | opened here =>
    refine .opened (here.step linked joint (session_same joint (client_keeps moved ?_).1))
    rintro conn session token resumed rootChanged rfl
    cases permitted
  | early early =>
    cases moved with
    | roots _ _ greeted =>
      refine .early ?_
      simpa [greeted, unfixed] using early
    | moots => exact .early rfl
    | fixes => exact .pending _ rfl (.inl before)
    | connects _ _ _ _ _ _ other | reconnects other => simp [other, unfixed] at early
    | sendsReopen _ _ _ _ other | endsReopen _ _ _ _ _ _ _ other => simp [other, unfixed] at early
    | publishes ready =>
      rcases ready with rooted | ⟨round, reopening, _⟩
      · simp [rooted, unfixed] at early
      · simp [reopening, unfixed] at early
    | _ => exact .early early
  | pending round reopening pending =>
    cases moved with
    | sendsReopen _ _ round' _ other sent =>
      cases reopening.symm.trans other
      exact .pending round' rfl ((ReopenRound.pending_send sent fh).mpr pending)
    | endsReopen x e j _ _ round' _ other found origin outcome current _ ended =>
      cases reopening.symm.trans other
      obtain ⟨_, _, others, _, _, after⟩ := ReopenRound.ended_cases ended
      by_cases same : fh = j
      · subst same
        rcases after with ⟨_, _, _, attr, found', _⟩ | ⟨live, _⟩
        · refine .opened ⟨x, { e with joined := true }, attr, lookup_write found,
            numbered.reopens x e fh found origin, ?_, ?_⟩
          · rw [System.sessionOf, currentSession, current]
          · rw [outcome, replied_of_result found']
        · exact absurd rfl ((live fh).mp alive).1
      · exact .pending round' rfl (others fh same pending)
    | publishes ready =>
      rcases ready with rooted | ⟨round', other, publishable⟩
      · cases reopening.symm.trans rooted
      · cases reopening.symm.trans other
        exact absurd pending (ReopenRound.not_pending_of_publishable publishable)
    | connects _ _ _ _ _ _ other | roots _ _ other | moots other | fixes _ other
    | reconnects other => cases reopening.symm.trans other
    | _ => exact .pending round reopening pending

/-- The client takes a new connection, which is one to its session or makes a new round necessary. -/
theorem Kept.connect {resumed rootChanged : Bool} (linked : Linked s)
    (moved : ProtocolLinks.Steps s action t) (connecting : s.client.manager = .connecting)
    (greeted : t.client.manager = .greeted resumed rootChanged)
    (next : t.client.generation = s.client.generation + 1)
    (same : (t.client.attached (s.client.generation + 1)).resumed = resumed) (h : Kept s fh) :
    Kept t fh := by
  cases resumed with
  | false => exact .early (by rw [greeted]; rfl)
  | true =>
    cases h with
    | early early => simp [connecting, unfixed] at early
    | pending _ reopening => cases connecting.symm.trans reopening
    | opened here =>
      have ⟨x, e, _, found, _⟩ := here
      obtain ⟨positive, le⟩ := linked.wired.sent x e found
      have again := (linked.step moved).resumed s.client.generation (by omega) (by omega) same
      refine .opened (here.step linked moved ?_)
      rw [currentSession, next, again]
      exact (attached_keeps moved (Nat.le_refl _)).session

theorem kept_of_records {made : ClientTasks.Action} {client : Client} (h : Handled s)
    (permitted : s.permits made = true) (moved : ClientTasks.Steps s.client made client)
    (inTime : recordsInTime s (.client made) = true) (records : Records s.client made client fh) :
    Kept { s with client := client } fh := by
  have joint : ProtocolLinks.Steps s (.client made) { s with client := client } :=
    .client made client rfl permitted moved
  obtain ⟨i, call, attr, rfl, found, purpose, _, result, _, manager, _⟩ := records
  simp only [recordsInTime, found, Option.bind_some, result, Bool.or_eq_true] at inTime
  rcases inTime with early | answered
  · exact .early (by simp only [manager, early])
  · obtain ⟨e, mem, answered⟩ := List.any_eq_true.mp answered
    obtain ⟨x, here⟩ := List.mem_iff_getElem?.mp mem
    simp only [Bool.and_eq_true, beq_iff_eq] at answered
    obtain ⟨⟨origin, session⟩, replied⟩ := answered
    have opens : e.req.opens = some fh := by
      rw [(h.linked.called.attempts i call found).req x e ⟨here, origin⟩, h.numbered.req i call found,
        purpose]
    refine .opened (OpenedHere.step h.linked joint (session_same joint (client_keeps moved (by simp)).1) ?_)
    split at replied
    · rename_i attr' outcome
      exact ⟨x, e, attr', here, opens, session, outcome⟩
    · cases replied

/-- Every handle alive is kept, whatever the step. -/
theorem kept_step (h : Handled s) (kept : ∀ fh ∈ s.client.handles.live, Kept s fh)
    (inTime : recordsInTime s action = true) (moved : ProtocolLinks.Steps s action t)
    (alive : fh ∈ t.client.handles.live) : Kept t fh := by
  have steps := moved
  cases moved with
  | client _ client named permitted moved =>
    subst named
    rcases live_of_step moved alive with before | records
    · exact (kept fh before).client h.linked h.numbered permitted moved before alive
    · exact kept_of_records h permitted moved inTime records
  | connects _ _ _ _ _ _ _ _ _ _ connecting =>
    exact (kept fh alive).connect h.linked steps connecting rfl rfl
      (by simp [greetedClient])
  | _ => exact (kept fh alive).same h.linked steps rfl

end Steps

/-- Once the current connection is published every handle alive was opened on its session: its open or
its reopen was answered there.  This holds in every run in which each call records its handle in
time. -/
theorem published_handles_opened {capacity : ℕ}
    (h : (Protocol.machine capacity).ReachableUnder (fun s action => recordsInTime s action = true) s)
    (published : (s.client.attached s.client.generation).state.published = true)
    (alive : fh ∈ s.client.handles.live) : OpenedHere s fh := by
  have invariant : Handled s ∧ ∀ fh ∈ s.client.handles.live, Kept s fh := by
    refine Machine.ReachableUnder.invariant
      (P := fun s => Handled s ∧ ∀ fh ∈ s.client.handles.live, Kept s fh) ?_ ?_ h
    · exact ⟨.new capacity, fun fh alive => absurd alive (AList.notMem_empty fh)⟩
    · intro s action t known inTime moves
      exact ⟨known.1.step moves, fun fh alive =>
        kept_step known.1 known.2 inTime (ProtocolLinks.step_steps moves) alive⟩
  obtain ⟨handled, kept⟩ := invariant
  have settled := handled.linked.marked.shown published
  cases kept fh alive with
  | early early =>
    rcases settled with at' | at' <;> simp [at', unfixed] at early
  | pending round reopening =>
    rcases settled with at' | at' <;> simp [at'] at reopening
  | opened here => exact here

/-- The connection is lost, the server reaps the session, and the client connects to a new one. -/
def newSessionRun : List Protocol.Action :=
  [.client .down, .client .leave, .client .releasesEnd, .client .reconnect, .server (.unregister 0),
    .server (.detach 0 0), .server (.letGo 0), .server (.reap 10 5 [1]), .dial, .hello 1,
    .create 1 8 1 [], .server (.ack 1), .connected false, .client .root, .client .moot,
    .client .fixRound]

/-- The handle held is opened again on the new session. -/
def reopenRun : List Protocol.Action :=
  [.client (.reopenSend 1), .client (.write 1), .server (.register 1), .server (.attach 1), .accept 1,
    .serve 1 .decode, .serve 1 .begin, .work 1 .look, .work 1 .reserve, .work 1 (.opens ⟨5, 9⟩),
    .serve 1 .finish, .deliver 1 true, .client (.ends 1 (.replied (.opened ⟨5, 9⟩))),
    .client (.reopenEnded 1), .client .publish]

theorem published_handles_opened_again :
    ∃ s, (Protocol.machine 4).ReachableUnder (fun s action => recordsInTime s action = true) s ∧
      currentSession s = 2 ∧ 1 ∈ s.client.handles.live ∧ OpenedHere s 1 := by
  obtain ⟨s, reached, holds⟩ := (Protocol.machine 4).exists_of_runWhile
    (p := fun s : System => currentSession s == 2 && decide (1 ∈ s.client.handles.live) &&
      (s.client.attached s.client.generation).state.published)
    (by decide +kernel : ((Protocol.machine 4).runWhile recordsInTime (.new 4)
      (openRun ++ newSessionRun ++ reopenRun)).any _ = true)
  simp only [Bool.and_eq_true, decide_eq_true_eq, beq_iff_eq] at holds
  exact ⟨s, reached, holds.1.1, holds.1.2, published_handles_opened reached holds.2 holds.1.2⟩

/-- The reply of an open is read, its session is lost and the round of the next one fixed, and only
then is the handle recorded: the new session has opened nothing at all. -/
theorem record_of_lost_session :
    ∃ s, (Protocol.machine 4).run (answeredRun ++ newSessionRun ++
        [.client .publish, .client (.settle 0 true)]) = some s ∧
      (s.client.attached s.client.generation).state.published = true ∧
      1 ∈ s.client.handles.live ∧ 1 ∉ s.client.round ∧ ¬OpenedHere s 1 ∧
      s.entry (currentSession s) 1 = none := by
  obtain ⟨s, run, _, holds⟩ := (Protocol.machine 4).exists_of_run
    (p := fun s : System => (s.client.attached s.client.generation).state.published &&
      decide (1 ∈ s.client.handles.live) && decide (1 ∉ s.client.round) &&
      (s.client.sent.all fun e => s.sessionOf e != currentSession s) &&
      (s.entry (currentSession s) 1).isNone)
    (by decide +kernel : ((Protocol.machine 4).run (answeredRun ++ newSessionRun ++
      [.client .publish, .client (.settle 0 true)])).any _ = true)
  simp only [Bool.and_eq_true, decide_eq_true_eq, Option.isNone_iff_eq_none] at holds
  obtain ⟨⟨⟨⟨published, alive⟩, outside⟩, elsewhere⟩, unknown⟩ := holds
  refine ⟨s, run, published, alive, outside, ?_, unknown⟩
  rintro ⟨x, e, attr, found, _, session, _⟩
  have apart := List.all_eq_true.mp elsewhere e (List.mem_of_getElem? found)
  simp [session] at apart

end JackalopeFs.ReopenedHandles
