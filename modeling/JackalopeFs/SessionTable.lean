import JackalopeFs.SessionExchange

/-! # The server's sessions, their connections and the handshakes that attach them

`Sessions` maps ids to sessions, keeps weak references to those it dropped, and
hands a session over between connections by epochs.  Handshakes, connection tasks
and the reaper write to it from different tasks.  This module embeds its functions
and the machine in which they interleave: one action is what one task does under
one lock, so everything may happen between two of them, and a handshake may fail
at any point.

The sessions ever created are a heap indexed by id, from which nothing is removed;
being in the table or in the dropped table is membership of the id.  The order in
which a hash map yields its entries is an input of the functions that iterate over
one.  Instants are numbers, and no assumption is made on how they grow.  What the
connections carry beyond requests (events, statistics, addresses) is left out.
-/

namespace JackalopeFs.SessionTable

open IndexedCells SessionExchange TransitionRuns

/-- How many detached sessions wait for a resume before the oldest is dropped. -/
def maxDetachedSessions : ℕ := 64

structure Sessions where
  states : ℕ → SessionState
  map : Finset ℕ
  dropped : Finset ℕ
  nextId : ℕ

namespace Sessions

def new : Sessions :=
  ⟨fun id => .new id 0, ∅, ∅, 0⟩

def update (s : Sessions) (id : ℕ) (f : SessionState → SessionState) : Sessions :=
  { s with states := Function.update s.states id (f (s.states id)) }

def epoch (s : Sessions) (id : ℕ) : ℕ :=
  (s.states id).attachment.epoch

def detachedAt (s : Sessions) (id : ℕ) : Option ℕ :=
  (s.states id).attachment.detachedAt

/-- Move `id` from the table to the dropped sessions, forgetting those of them that nothing refers
to; `referred` says which sessions something still refers to. -/
def retire (referred : ℕ → Bool) (s : Sessions) (id : ℕ) : Sessions :=
  if id ∈ s.map then
    { s with
      map := s.map.erase id
      dropped := insert id (s.dropped.filter fun d => referred d) }
  else
    s

/-- `retire` for each of `ids` in turn; the caller refers to all of them until it is done. -/
def retireAll (referred : ℕ → Bool) (s : Sessions) (ids : List ℕ) : Sessions :=
  ids.foldl (retire fun d => referred d || ids.contains d) s

/-- The detached sessions with their instants, in the order in which the table is read. -/
def detached (s : Sessions) (order : List ℕ) : List (ℕ × ℕ) :=
  order.filterMap fun id => (s.detachedAt id).map fun since => (id, since)

/-- The detached sessions that `create` drops to make room, longest detached first. -/
def crowdedOut (s : Sessions) (order : List ℕ) : List ℕ :=
  let waiting := s.detached order
  if maxDetachedSessions ≤ waiting.length then
    ((waiting.insertionSort fun a b => a.2 ≤ b.2).take
      (waiting.length + 1 - maxDetachedSessions)).map Prod.fst
  else
    []

/-- A brand-new session, attached to the caller; its id is the new `nextId`. -/
def create (s : Sessions) (referred : ℕ → Bool) (order : List ℕ) (token : ℕ) : Sessions :=
  let id := s.nextId + 1
  let room := s.retireAll referred (s.crowdedOut order)
  { room with
    states := Function.update room.states id (.new id token)
    map := insert id room.map
    nextId := id }

/-- Reattach `id` if the token matches: a session of the table, or a dropped one with something of
it under way. -/
def resume (s : Sessions) (id token : ℕ) : Option Sessions :=
  if id ∈ s.map then
    if (s.states id).resumeToken = token then
      some (s.update id fun st => { st with attachment := st.attachment.resumed })
    else
      none
  else if id ∈ s.dropped ∧ (s.states id).holders ≠ 0 then
    if (s.states id).resumeToken = token then
      some ({ s with dropped := s.dropped.erase id, map := insert id s.map }.update id
        fun st => { st with attachment := st.attachment.resumed })
    else
      none
  else
    none

def forget (s : Sessions) (id : ℕ) : Sessions :=
  { s with map := s.map.erase id }

/-- Mark the session detached, unless a newer connection has taken it over. -/
def detach (s : Sessions) (id epoch now : ℕ) : Sessions :=
  if id ∈ s.map ∧ s.epoch id = epoch then
    s.update id fun st => { st with attachment := { st.attachment with detachedAt := some now } }
  else
    s

def reap (s : Sessions) (referred : ℕ → Bool) (order : List ℕ) (now grace : ℕ) : Sessions :=
  s.retireAll referred
    ((s.detached order).filterMap fun d => if grace ≤ now - d.2 then some d.1 else none)

end Sessions

/-- Where the task of one connection is, from its hello to its end.  At `creating` the hello named
no session that could be resumed and the task has none yet; `failed` is a handshake dropped before
its Ack was written; an attached connection ends by leaving the registry, detaching the session and
dropping its hold on it, in this order. -/
inductive ConnStage where
  | creating
  | handshake
  | failed
  | acked
  | registered
  | attached
  | unregistered
  | detached
  | ended
  deriving DecidableEq, Repr

namespace ConnStage

def refers : ConnStage → Bool
  | .creating | .failed | .ended => false
  | .handshake | .acked | .registered | .attached | .unregistered | .detached => true

/-- A connection at this stage holds its session (`AttachmentConn`). -/
def holds : ConnStage → Bool
  | .attached | .unregistered | .detached => true
  | .creating | .handshake | .failed | .acked | .registered | .ended => false

/-- The end of the task will still detach or forget the session at the connection's epoch. -/
def owns : ConnStage → Bool
  | .handshake | .acked | .registered | .attached | .unregistered => true
  | .creating | .failed | .detached | .ended => false

end ConnStage

structure ConnTask where
  session : ℕ
  epoch : ℕ
  resumed : Bool
  stage : ConnStage
  deriving DecidableEq, Repr

namespace ConnTask

def fresh (c : ConnTask) : Prop :=
  c.resumed = false ∧ c.stage ≠ .creating

end ConnTask

/-- The sessions, the registry of attached connections by session, and every connection's task. -/
structure Server where
  sessions : Sessions
  connections : ℕ → Option ℕ
  conns : List ConnTask

namespace Server

def new : Server :=
  ⟨.new, fun _ => none, []⟩

/-- Something refers to the session: a connection's task or a request under way. -/
def referred (s : Server) (id : ℕ) : Bool :=
  (s.conns.any fun c => c.session == id && c.stage.refers) ||
    (s.sessions.states id).requests.any RequestTask.holds

def onConn (s : Server) (k : ℕ) (stage : ConnStage) (f : ConnTask → Server) : Option Server :=
  match s.conns[k]? with
  | some c => if c.stage = stage then some (f c) else none
  | none => none

def setStage (s : Server) (k : ℕ) (c : ConnTask) (stage : ConnStage) : Server :=
  { s with conns := s.conns.set k { c with stage := stage } }

end Server

inductive Action where
  | hello (resume : Option (ℕ × ℕ))
  | create (k token : ℕ) (order : List ℕ)
  | fail (k now : ℕ)
  | ack (k : ℕ)
  | register (k : ℕ)
  | attach (k : ℕ)
  | unregister (k : ℕ)
  | detach (k now : ℕ)
  | letGo (k : ℕ)
  | accept (k : ℕ)
  | request (id : ℕ) (action : RequestAction)
  | reap (now grace : ℕ) (order : List ℕ)
  deriving DecidableEq, Repr

/-- The first half of what `handshake` does with a hello: resume the session it names.  Failing that
the task goes on to create one, under another lock. -/
def hello (s : Server) (resume : Option (ℕ × ℕ)) : Server :=
  match resume.bind fun r => (s.sessions.resume r.1 r.2).map fun t => (r.1, t) with
  | some (id, resumed) =>
    { s with
      sessions := resumed
      conns := s.conns ++ [⟨id, resumed.epoch id, true, .handshake⟩] }
  | none => { s with conns := s.conns ++ [⟨0, 0, false, .creating⟩] }

def step (s : Server) : Action → Option Server
  | .hello resume => some (hello s resume)
  | .create k token order =>
    if order.Nodup ∧ order.toFinset = s.sessions.map then
      s.onConn k .creating fun c =>
        let created := s.sessions.create s.referred order token
        { s with
          sessions := created
          conns := s.conns.set k { c with session := created.nextId, epoch := 1,
                                          stage := .handshake } }
    else none
  | .fail k now =>
    -- The drop of `DetachUnlessAcked`.
    s.onConn k .handshake fun c =>
      { s.setStage k c .failed with
        sessions :=
          if c.resumed then s.sessions.detach c.session c.epoch now
          else s.sessions.forget c.session }
  | .ack k => s.onConn k .handshake fun c => s.setStage k c .acked
  | .register k =>
    s.onConn k .acked fun c =>
      if (s.connections c.session).any fun entry => decide (c.epoch < entry) then
        s.setStage k c .ended
      else
        { s.setStage k c .registered with
          connections := Function.update s.connections c.session (some c.epoch) }
  | .attach k =>
    s.onConn k .registered fun c =>
      { s.setStage k c .attached with
        sessions := s.sessions.update c.session fun st => { st with holders := st.holders + 1 } }
  | .unregister k =>
    s.onConn k .attached fun c =>
      { s.setStage k c .unregistered with
        connections :=
          if s.connections c.session = some c.epoch then
            Function.update s.connections c.session none
          else s.connections }
  | .detach k now =>
    s.onConn k .unregistered fun c =>
      { s.setStage k c .detached with sessions := s.sessions.detach c.session c.epoch now }
  | .letGo k =>
    s.onConn k .detached fun c =>
      { s.setStage k c .ended with
        sessions := s.sessions.update c.session fun st => { st with holders := st.holders - 1 } }
  | .accept k =>
    s.onConn k .attached fun c =>
      { s with
        sessions := s.sessions.update c.session fun st =>
          { st with
            holders := st.holders + 1
            requests := st.requests ++ [⟨c.epoch, .accepted⟩] } }
  | .request id action =>
    (requestStep (s.sessions.states id) action).map fun st =>
      { s with sessions := { s.sessions with states := Function.update s.sessions.states id st } }
  | .reap now grace order =>
    if order.Nodup ∧ order.toFinset = s.sessions.map then
      some { s with sessions := s.sessions.reap s.referred order now grace }
    else none

def machine : Machine Server Action :=
  ⟨.new, step⟩

namespace Sessions

section Effects

variable (s : Sessions) (id j epoch now : ℕ) (f : SessionState → SessionState)
variable (referred : ℕ → Bool) (ids : List ℕ)

@[simp] theorem update_map : (s.update id f).map = s.map := rfl

@[simp] theorem update_dropped : (s.update id f).dropped = s.dropped := rfl

@[simp] theorem update_nextId : (s.update id f).nextId = s.nextId := rfl

theorem update_states : (s.update id f).states j = if j = id then f (s.states id) else s.states j := by
  simp [update, Function.update_apply]

@[simp] theorem forget_states : (s.forget id).states = s.states := rfl

@[simp] theorem forget_map : (s.forget id).map = s.map.erase id := rfl

@[simp] theorem forget_dropped : (s.forget id).dropped = s.dropped := rfl

@[simp] theorem forget_nextId : (s.forget id).nextId = s.nextId := rfl

@[simp] theorem detach_map : (s.detach id epoch now).map = s.map := by
  unfold detach
  split_ifs <;> rfl

@[simp] theorem detach_dropped : (s.detach id epoch now).dropped = s.dropped := by
  unfold detach
  split_ifs <;> rfl

@[simp] theorem detach_nextId : (s.detach id epoch now).nextId = s.nextId := by
  unfold detach
  split_ifs <;> rfl

/-- Detaching changes nothing of a session but the start of its grace period. -/
theorem detach_states :
    (s.detach id epoch now).states j =
      { s.states j with
        attachment := { (s.states j).attachment with
          detachedAt := (s.detach id epoch now).detachedAt j } } := by
  unfold detach
  split_ifs with here
  · simp only [detachedAt, update_states]
    split_ifs with same
    · rw [same]
    · rfl
  · rfl

theorem detach_detachedAt :
    (s.detach id epoch now).detachedAt j =
      if j = id ∧ id ∈ s.map ∧ s.epoch id = epoch then some now else s.detachedAt j := by
  unfold detach
  split_ifs with here same same
  · simp only [detachedAt, update_states, same.1, if_true]
  · simp only [detachedAt, update_states]
    rw [if_neg fun eq => same ⟨eq, here⟩]
  · exact absurd same.2 here
  · rfl

@[simp] theorem retire_states : (s.retire referred id).states = s.states := by
  unfold retire
  split_ifs <;> rfl

@[simp] theorem retire_nextId : (s.retire referred id).nextId = s.nextId := by
  unfold retire
  split_ifs <;> rfl

theorem mem_retire_map : j ∈ (s.retire referred id).map ↔ j ∈ s.map ∧ j ≠ id := by
  unfold retire
  split_ifs with here
  · simp [and_comm]
  · refine ⟨fun mem => ⟨mem, ?_⟩, And.left⟩
    rintro rfl
    exact here mem

theorem mem_retire_dropped (h : j ∈ (s.retire referred id).dropped) :
    j ∈ s.dropped ∨ (j = id ∧ j ∈ s.map) := by
  unfold retire at h
  split_ifs at h with here
  · rcases Finset.mem_insert.mp h with rfl | h
    · exact .inr ⟨rfl, here⟩
    · exact .inl (Finset.mem_filter.mp h).1
  · exact .inl h

theorem retire_dropped_keeps (h : j ∈ s.dropped ∨ (j = id ∧ j ∈ s.map))
    (alive : j = id ∨ referred j) : j ∈ (s.retire referred id).dropped := by
  unfold retire
  split_ifs with here
  · rcases alive with rfl | alive
    · exact Finset.mem_insert_self _ _
    · rcases h with h | ⟨rfl, _⟩
      · exact Finset.mem_insert_of_mem (Finset.mem_filter.mpr ⟨h, alive⟩)
      · exact Finset.mem_insert_self _ _
  · rcases h with h | ⟨rfl, h⟩
    · exact h
    · exact absurd h here

end Effects

section Retirement

/-- What retiring `ids` makes of the sessions: the table loses exactly those, the dropped sessions
gain only those and keep whatever is still alive, and nothing else changes. -/
structure Retires (alive : ℕ → Bool) (s : Sessions) (ids : List ℕ) (t : Sessions) : Prop where
  states : t.states = s.states
  nextId : t.nextId = s.nextId
  mem_map : ∀ j, j ∈ t.map ↔ j ∈ s.map ∧ j ∉ ids
  gained : ∀ j, j ∈ t.dropped → j ∈ s.dropped ∨ (j ∈ ids ∧ j ∈ s.map)
  kept : ∀ j, j ∈ s.dropped ∨ (j ∈ ids ∧ j ∈ s.map) → alive j → j ∈ t.dropped

variable {s : Sessions} {referred : ℕ → Bool} {ids : List ℕ}

theorem foldl_retire {alive : ℕ → Bool} : Retires alive s ids (ids.foldl (retire alive) s) := by
  induction ids generalizing s with
  | nil => exact ⟨rfl, rfl, by simp, by simp, by simp +contextual⟩
  | cons id _ ih =>
    have tail := @ih (s.retire alive id)
    simp only [List.foldl_cons]
    refine ⟨?_, ?_, ?_, ?_, ?_⟩
    · rw [tail.states, retire_states]
    · rw [tail.nextId, retire_nextId]
    · intro j
      rw [tail.mem_map, mem_retire_map, List.mem_cons, not_or, and_assoc]
    · intro j mem
      rcases tail.gained j mem with mem | ⟨mem, inMap⟩
      · rcases mem_retire_dropped _ _ _ _ mem with mem | ⟨rfl, inMap⟩
        · exact .inl mem
        · exact .inr ⟨List.mem_cons_self, inMap⟩
      · exact .inr ⟨List.mem_cons_of_mem _ mem, ((mem_retire_map _ _ _ _).mp inMap).1⟩
    · intro j mem living
      refine tail.kept j ?_ living
      rcases mem with mem | ⟨mem, inMap⟩
      · exact .inl (retire_dropped_keeps _ _ _ _ (.inl mem) (.inr living))
      · by_cases eq : j = id
        · exact .inl (retire_dropped_keeps _ _ _ _ (.inr ⟨eq, inMap⟩) (.inr living))
        · have later := (List.mem_cons.mp mem).resolve_left eq
          exact .inr ⟨later, (mem_retire_map _ _ _ _).mpr ⟨inMap, eq⟩⟩

theorem retireAll_retires :
    Retires (fun d => referred d || ids.contains d) s ids (s.retireAll referred ids) :=
  foldl_retire

theorem detachedAt_of_mem_detached {order : List ℕ} {d : ℕ × ℕ} (h : d ∈ s.detached order) :
    s.detachedAt d.1 = some d.2 := by
  obtain ⟨id, _, found⟩ := List.mem_filterMap.mp h
  obtain ⟨since, at', rfl⟩ := Option.map_eq_some_iff.mp found
  exact at'

theorem detachedAt_of_mem_crowdedOut {order : List ℕ} {id : ℕ} (h : id ∈ s.crowdedOut order) :
    s.detachedAt id ≠ none := by
  unfold crowdedOut at h
  simp only at h
  split_ifs at h
  · obtain ⟨d, mem, rfl⟩ := List.mem_map.mp h
    have sorted := List.mem_of_mem_take mem
    rw [List.mem_insertionSort] at sorted
    simp [detachedAt_of_mem_detached sorted]
  · cases h

end Retirement

end Sessions

section Steps

variable {s t : Server}

theorem of_onConn {k : ℕ} {stage : ConnStage} {f : ConnTask → Server}
    (h : s.onConn k stage f = some t) :
    ∃ c, s.conns[k]? = some c ∧ c.stage = stage ∧ t = f c := by
  unfold Server.onConn at h
  split at h
  · rename_i c found
    split_ifs at h with here
    exact ⟨c, found, here, (Option.some.inj h).symm⟩
  · cases h

theorem Sessions.resume_eq_some {ss tt : Sessions} {id token : ℕ}
    (h : ss.resume id token = some tt) :
    (id ∈ ss.map ∨ (id ∈ ss.dropped ∧ (ss.states id).holders ≠ 0)) ∧
      (ss.states id).resumeToken = token ∧
      tt.states = Function.update ss.states id
        { ss.states id with attachment := (ss.states id).attachment.resumed } ∧
      tt.map = insert id ss.map ∧ tt.nextId = ss.nextId ∧
      (∀ j, j ∈ tt.dropped → j ∈ ss.dropped ∧ (j = id → id ∈ ss.map)) ∧
      (∀ j, j ∈ ss.dropped → j ≠ id → j ∈ tt.dropped) := by
  unfold Sessions.resume at h
  split_ifs at h with inMap token inDropped token
  · cases h
    exact ⟨.inl inMap, token, rfl, (Finset.insert_eq_self.mpr inMap).symm, rfl,
      fun j mem => ⟨mem, fun _ => inMap⟩, fun j mem _ => mem⟩
  · cases h
    refine ⟨.inr inDropped, token, rfl, rfl, rfl, fun j mem => ?_, fun j mem ne => ?_⟩
    · have := Finset.mem_erase.mp mem
      exact ⟨this.2, fun eq => absurd eq this.1⟩
    · exact Finset.mem_erase.mpr ⟨ne, mem⟩

/-- What a hello does: it resumes the session it names, or adds a task that will create one. -/
inductive Greets (s : Server) (resume : Option (ℕ × ℕ)) : Server → Prop where
  | resumes (id token : ℕ) (named : resume = some (id, token)) (resumed : Sessions)
      (done : s.sessions.resume id token = some resumed) :
      Greets s resume { s with
        sessions := resumed
        conns := s.conns ++ [⟨id, resumed.epoch id, true, .handshake⟩] }
  | waits (refused : ∀ r, resume = some r → s.sessions.resume r.1 r.2 = none) :
      Greets s resume { s with conns := s.conns ++ [⟨0, 0, false, .creating⟩] }

theorem hello_greets (resume : Option (ℕ × ℕ)) : Greets s resume (hello s resume) := by
  unfold hello
  cases resume with
  | none => exact .waits (by simp)
  | some r =>
    cases done : s.sessions.resume r.1 r.2 with
    | none =>
      simp only [Option.bind_some, done, Option.map_none]
      exact .waits (by rintro _ ⟨⟩; exact done)
    | some resumed =>
      simp only [Option.bind_some, done, Option.map_some]
      exact .resumes r.1 r.2 rfl resumed done

inductive Steps (s : Server) : Action → Server → Prop where
  | greets {t : Server} (resume : Option (ℕ × ℕ)) (greets : Greets s resume t) :
      Steps s (.hello resume) t
  | creates (k : ℕ) (c : ConnTask) (token : ℕ) (order : List ℕ) (found : s.conns[k]? = some c)
      (waiting : c.stage = .creating) :
      Steps s (.create k token order) { s with
        sessions := s.sessions.create s.referred order token
        conns := s.conns.set k { c with
          session := s.sessions.nextId + 1, epoch := 1, stage := .handshake } }
  | failsResumed (k : ℕ) (c : ConnTask) (now : ℕ) (found : s.conns[k]? = some c)
      (unacked : c.stage = .handshake) (resumed : c.resumed = true) :
      Steps s (.fail k now) { s.setStage k c .failed with
        sessions := s.sessions.detach c.session c.epoch now }
  | failsFresh (k : ℕ) (c : ConnTask) (now : ℕ) (found : s.conns[k]? = some c)
      (unacked : c.stage = .handshake) (fresh : c.resumed = false) :
      Steps s (.fail k now) { s.setStage k c .failed with sessions := s.sessions.forget c.session }
  | acks (k : ℕ) (c : ConnTask) (found : s.conns[k]? = some c) (unacked : c.stage = .handshake) :
      Steps s (.ack k) (s.setStage k c .acked)
  | turnedAway (k : ℕ) (c : ConnTask) (entry : ℕ) (found : s.conns[k]? = some c)
      (acked : c.stage = .acked) (registered : s.connections c.session = some entry)
      (newer : c.epoch < entry) : Steps s (.register k) (s.setStage k c .ended)
  | registers (k : ℕ) (c : ConnTask) (found : s.conns[k]? = some c) (acked : c.stage = .acked) :
      Steps s (.register k) { s.setStage k c .registered with
        connections := Function.update s.connections c.session (some c.epoch) }
  | attaches (k : ℕ) (c : ConnTask) (found : s.conns[k]? = some c)
      (registered : c.stage = .registered) :
      Steps s (.attach k) { s.setStage k c .attached with
        sessions := s.sessions.update c.session fun st => { st with holders := st.holders + 1 } }
  | unregisters (k : ℕ) (c : ConnTask) (found : s.conns[k]? = some c)
      (attached : c.stage = .attached) :
      Steps s (.unregister k) { s.setStage k c .unregistered with
        connections :=
          if s.connections c.session = some c.epoch then
            Function.update s.connections c.session none
          else s.connections }
  | detaches (k : ℕ) (c : ConnTask) (now : ℕ) (found : s.conns[k]? = some c)
      (unregistered : c.stage = .unregistered) :
      Steps s (.detach k now) { s.setStage k c .detached with
        sessions := s.sessions.detach c.session c.epoch now }
  | letsGo (k : ℕ) (c : ConnTask) (found : s.conns[k]? = some c)
      (detached : c.stage = .detached) :
      Steps s (.letGo k) { s.setStage k c .ended with
        sessions := s.sessions.update c.session fun st => { st with holders := st.holders - 1 } }
  | accepts (k : ℕ) (c : ConnTask) (found : s.conns[k]? = some c)
      (attached : c.stage = .attached) :
      Steps s (.accept k) { s with
        sessions := s.sessions.update c.session fun st =>
          { st with
            holders := st.holders + 1
            requests := st.requests ++ [⟨c.epoch, .accepted⟩] } }
  | requests (id : ℕ) (made : RequestAction) (st : SessionState)
      (moved : RequestSteps (s.sessions.states id) st) :
      Steps s (.request id made) { s with sessions := { s.sessions with
        states := Function.update s.sessions.states id st } }
  | reaps (now grace : ℕ) (order ids : List ℕ)
      (waiting : ∀ id ∈ ids, s.sessions.detachedAt id ≠ none) :
      Steps s (.reap now grace order) { s with
        sessions := s.sessions.retireAll s.referred ids }

variable {action : Action}

theorem step_steps (h : step s action = some t) : Steps s action t := by
  cases action with
  | hello resume =>
    cases h
    exact .greets resume (hello_greets resume)
  | create k token order =>
    simp only [step] at h
    split_ifs at h
    obtain ⟨c, found, stage, rfl⟩ := of_onConn h
    exact .creates k c token order found stage
  | fail k now =>
    obtain ⟨c, found, stage, rfl⟩ := of_onConn h
    cases resumed : c.resumed with
    | true => exact .failsResumed k c now found stage resumed
    | false => exact .failsFresh k c now found stage resumed
  | ack k =>
    obtain ⟨c, found, stage, rfl⟩ := of_onConn h
    exact .acks k c found stage
  | register k =>
    obtain ⟨c, found, stage, rfl⟩ := of_onConn h
    split_ifs with newer
    · obtain ⟨entry, registered, later⟩ := (Option.any_eq_true _ _).mp newer
      exact .turnedAway k c entry found stage registered (of_decide_eq_true later)
    · exact .registers k c found stage
  | attach k =>
    obtain ⟨c, found, stage, rfl⟩ := of_onConn h
    exact .attaches k c found stage
  | unregister k =>
    obtain ⟨c, found, stage, rfl⟩ := of_onConn h
    exact .unregisters k c found stage
  | detach k now =>
    obtain ⟨c, found, stage, rfl⟩ := of_onConn h
    exact .detaches k c now found stage
  | letGo k =>
    obtain ⟨c, found, stage, rfl⟩ := of_onConn h
    exact .letsGo k c found stage
  | accept k =>
    obtain ⟨c, found, stage, rfl⟩ := of_onConn h
    exact .accepts k c found stage
  | request id action =>
    obtain ⟨st, moved, rfl⟩ := Option.map_eq_some_iff.mp h
    exact .requests id action st (requestStep_steps moved)
  | reap now grace order =>
    simp only [step] at h
    split_ifs at h
    cases h
    refine .reaps now grace order _ fun id mem => ?_
    obtain ⟨d, listed, chosen⟩ := List.mem_filterMap.mp mem
    split_ifs at chosen
    cases chosen
    simp [Sessions.detachedAt_of_mem_detached listed]

theorem nextId_of_steps (moved : Steps s action t) :
    t.sessions.nextId = s.sessions.nextId ∨
      t.sessions.nextId = s.sessions.nextId + 1 ∧ ∃ k token order, action = .create k token order := by
  cases moved with
  | greets _ greets =>
    cases greets with
    | resumes _ _ _ _ done =>
      obtain ⟨_, _, _, _, next, _⟩ := Sessions.resume_eq_some done
      exact .inl next
    | waits => exact .inl rfl
  | creates k _ token order => exact .inr ⟨rfl, k, token, order, rfl⟩
  | failsResumed | detaches => exact .inl (Sessions.detach_nextId ..)
  | reaps => exact .inl Sessions.retireAll_retires.nextId
  | _ => exact .inl rfl

inductive SessionEffect (s : Server) (action : Action) (id : ℕ) (st : SessionState) : Prop where
  | keeps (holders : ℕ) (since : Option ℕ)
      (same : st = { s.sessions.states id with
        attachment := { (s.sessions.states id).attachment with detachedAt := since }
        holders := holders })
  | resumes (resume : Option (ℕ × ℕ)) (named : action = .hello resume)
      (resumed : st = { s.sessions.states id with
        attachment := (s.sessions.states id).attachment.resumed })
  | accepts (c : ConnTask) (mem : c ∈ s.conns) (session : c.session = id)
      (attached : c.stage = .attached)
      (more : st = { s.sessions.states id with
        holders := (s.sessions.states id).holders + 1
        requests := (s.sessions.states id).requests ++ [⟨c.epoch, .accepted⟩] })
  | moves (made : RequestAction) (named : action = .request id made)
      (moved : RequestSteps (s.sessions.states id) st)
  | creates (token : ℕ) (new : id = s.sessions.nextId + 1) (made : st = .new id token)

theorem SessionEffect.of_update {id j : ℕ} {st : SessionState}
    (effect : SessionEffect s action j st) :
    SessionEffect s action id (Function.update s.sessions.states j st id) := by
  by_cases same : id = j
  · rw [same, Function.update_self]
    exact effect
  · rw [Function.update_of_ne same]
    exact .keeps _ _ rfl

theorem session_effect (moved : Steps s action t) (id : ℕ) :
    SessionEffect s action id (t.sessions.states id) := by
  cases moved with
  | greets resume greets =>
    cases greets with
    | resumes _ _ _ _ done =>
      obtain ⟨_, _, states, _⟩ := Sessions.resume_eq_some done
      simp only [states]
      exact .of_update (.resumes resume rfl rfl)
    | waits => exact .keeps _ _ rfl
  | creates _ _ token order =>
    have room := @Sessions.retireAll_retires s.sessions s.referred (s.sessions.crowdedOut order)
    simp only [Sessions.create, room.states]
    exact .of_update (.creates token rfl rfl)
  | failsResumed | detaches => exact .keeps _ _ (Sessions.detach_states _ _ _ _ _)
  | attaches | letsGo => exact .of_update (.keeps _ _ rfl)
  | accepts _ c found attached =>
    exact .of_update (.accepts c (List.mem_of_getElem? found) rfl attached rfl)
  | requests _ made _ moved => exact .of_update (.moves made rfl moved)
  | reaps _ _ _ ids =>
    have room := @Sessions.retireAll_retires s.sessions s.referred ids
    simp only [room.states]
    exact .keeps _ _ rfl
  | _ => exact .keeps _ _ rfl

/-- One stage of a task that has its session, and the next. -/
inductive StageSteps : ConnStage → ConnStage → Prop where
  | fails : StageSteps .handshake .failed
  | acks : StageSteps .handshake .acked
  | turnedAway : StageSteps .acked .ended
  | registers : StageSteps .acked .registered
  | attaches : StageSteps .registered .attached
  | unregisters : StageSteps .attached .unregistered
  | detaches : StageSteps .unregistered .detached
  | letsGo : StageSteps .detached .ended

structure Stays (c c' : ConnTask) : Prop where
  session : c'.session = c.session
  epoch : c'.epoch = c.epoch
  resumed : c'.resumed = c.resumed
  stage : c'.stage = c.stage ∨ StageSteps c.stage c'.stage

theorem Stays.refl (c : ConnTask) : Stays c c :=
  ⟨rfl, rfl, rfl, .inl rfl⟩

/-- What an action brings: a task that waits for its session, has resumed one or has created one. -/
inductive Comes (s t : Server) (k : ℕ) : ConnTask → Prop where
  | waits (last : k = s.conns.length) : Comes s t k ⟨0, 0, false, .creating⟩
  | resumes (id : ℕ) (last : k = s.conns.length)
      (origin : id ∈ s.sessions.map ∨ id ∈ s.sessions.dropped) (mem : id ∈ t.sessions.map)
      (epoch : t.sessions.epoch id = s.sessions.epoch id + 1)
      (attached : t.sessions.detachedAt id = none) :
      Comes s t k ⟨id, t.sessions.epoch id, true, .handshake⟩
  | creates (c : ConnTask) (found : s.conns[k]? = some c) (waiting : c.stage = .creating)
      (given : t.sessions.nextId = s.sessions.nextId + 1)
      (mem : s.sessions.nextId + 1 ∈ t.sessions.map)
      (epoch : t.sessions.epoch (s.sessions.nextId + 1) = 1)
      (attached : t.sessions.detachedAt (s.sessions.nextId + 1) = none) :
      Comes s t k { c with session := s.sessions.nextId + 1, epoch := 1, stage := .handshake }

/-- The tasks after an action were there before it, except for the one that it brings. -/
theorem conns_origin (moved : Steps s action t) :
    ∃ new, ∀ k c', t.conns[k]? = some c' →
      (∃ c, s.conns[k]? = some c ∧ Stays c c') ∨ k = new ∧ Comes s t k c' := by
  have restaged : ∀ {j : ℕ} {c : ConnTask} {stage : ConnStage}, s.conns[j]? = some c →
      StageSteps c.stage stage → ∃ new, ∀ k c', (s.conns.set j { c with stage := stage })[k]? = some c' →
        (∃ c, s.conns[k]? = some c ∧ Stays c c') ∨ k = new ∧ Comes s t k c' := by
    intro j c stage found moves
    refine ⟨j, fun k c' found' => .inl ?_⟩
    rcases of_lookup_write found' with ⟨rfl, rfl⟩ | ⟨_, old⟩
    · exact ⟨c, found, rfl, rfl, rfl, .inr moves⟩
    · exact ⟨c', old, .refl c'⟩
  cases moved with
  | greets _ greets =>
    refine ⟨s.conns.length, fun k c' found' => ?_⟩
    cases greets with
    | resumes id _ _ resumed done =>
      obtain ⟨origin, _, states, map, _⟩ := Sessions.resume_eq_some done
      rcases of_lookup_add found' with old | ⟨last, rfl⟩
      · exact .inl ⟨c', old, .refl c'⟩
      · refine .inr ⟨last, .resumes id last (origin.imp_right And.left) ?_ ?_ ?_⟩
        · simp [map]
        · simp [Sessions.epoch, states, Attachment.resumed]
        · simp [Sessions.detachedAt, states, Attachment.resumed]
    | waits =>
      rcases of_lookup_add found' with old | ⟨last, rfl⟩
      · exact .inl ⟨c', old, .refl c'⟩
      · exact .inr ⟨last, .waits last⟩
  | creates k c _ _ found waiting =>
    refine ⟨k, fun j c' found' => ?_⟩
    rcases of_lookup_write found' with ⟨rfl, rfl⟩ | ⟨_, old⟩
    · refine .inr ⟨rfl, .creates c found waiting rfl ?_ ?_ ?_⟩
      · simp [Sessions.create]
      · simp [Sessions.epoch, Sessions.create, SessionState.new]
      · simp [Sessions.detachedAt, Sessions.create, SessionState.new]
    · exact .inl ⟨c', old, .refl c'⟩
  | failsResumed _ _ _ found stage | failsFresh _ _ _ found stage =>
    exact restaged found (by rw [stage]; exact .fails)
  | acks _ _ found stage => exact restaged found (by rw [stage]; exact .acks)
  | turnedAway _ _ _ found stage => exact restaged found (by rw [stage]; exact .turnedAway)
  | registers _ _ found stage => exact restaged found (by rw [stage]; exact .registers)
  | attaches _ _ found stage => exact restaged found (by rw [stage]; exact .attaches)
  | unregisters _ _ found stage => exact restaged found (by rw [stage]; exact .unregisters)
  | detaches _ _ _ found stage => exact restaged found (by rw [stage]; exact .detaches)
  | letsGo _ _ found stage => exact restaged found (by rw [stage]; exact .letsGo)
  | accepts | requests | reaps => exact ⟨0, fun k c' found' => .inl ⟨c', found', .refl c'⟩⟩

theorem Stays.named {c c' : ConnTask} (h : Stays c c') :
    c'.stage ≠ .creating ↔ c.stage ≠ .creating := by
  rcases h.stage with same | moves
  · rw [same]
  · generalize c.stage = was, c'.stage = stage at moves
    cases moves <;> simp

theorem Stays.fresh {c c' : ConnTask} (h : Stays c c') (fresh : c'.fresh) : c.fresh :=
  ⟨h.resumed.symm.trans fresh.1, h.named.mp fresh.2⟩

theorem Comes.above {k : ℕ} {c : ConnTask} (h : Comes s t k c) (fresh : c.fresh) :
    s.sessions.nextId < c.session := by
  cases h with
  | waits => exact absurd rfl fresh.2
  | resumes => exact absurd fresh.1 (by simp)
  | creates => exact Nat.lt_succ_self _

/-- Every task is still there after an action, and only one that waits gets its session. -/
theorem conns_stay (moved : Steps s action t) {k : ℕ} {c : ConnTask}
    (found : s.conns[k]? = some c) :
    ∃ c', t.conns[k]? = some c' ∧ (Stays c c' ∨ c.stage = .creating ∧ c'.resumed = c.resumed ∧
      c'.stage = .handshake) := by
  have longer : s.conns.length ≤ t.conns.length := by
    cases moved with
    | greets _ greets => cases greets <;> simp
    | _ => simp [Server.setStage]
  have bound := lt_of_lookup found
  obtain ⟨new, origin⟩ := conns_origin moved
  refine ⟨t.conns[k], List.getElem?_eq_getElem (by omega), ?_⟩
  rcases origin k _ (List.getElem?_eq_getElem (by omega)) with ⟨d, here, stays⟩ | ⟨_, comes⟩
  · cases found.symm.trans here
    exact .inl stays
  · generalize t.conns[k] = c' at comes
    cases comes with
    | waits | resumes => omega
    | creates _ here waiting =>
      cases found.symm.trans here
      exact .inr ⟨waiting, rfl, rfl⟩

end Steps

end JackalopeFs.SessionTable
