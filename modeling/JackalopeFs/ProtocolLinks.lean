import JackalopeFs.ClientCalls
import JackalopeFs.Protocol

/-! # What ties the client's connections and exchanges to the server's

Each generation of the client is a connection of the server, each exchange that the
server accepted is a request of the session it was sent to, and a hello resumes only
a session whose token the client was told.  The module inverts the joint step once
and derives these ties from it, for every interleaving of the two sides.
-/

namespace JackalopeFs.ProtocolLinks

open ClientCalls ClientConnections ClientMachine ClientTasks IndexedCells Option OwedReleases Protocol
open SessionAttendance SessionExchange SessionOwnership SessionTable SharedHandles TransitionRuns
open WireRequests

variable {s t : System} {action : Protocol.Action}

/-- The client once the handshake on connection `k`, whose task at the server is `c`, is done. -/
def greetedClient (client : Client) (k : ℕ) (c : ConnTask) (token : ℕ) (rootChanged : Bool) : Client :=
  { client with
    generation := client.generation + 1
    attached := Function.update client.attached (client.generation + 1)
      ⟨k, c.session, c.resumed, .new (client.generation + 1), true⟩
    resume := some (c.session, token)
    manager := .greeted c.resumed rootChanged }

theorem greetedClient_steps {client : Client} (k : ℕ) (c : ConnTask) (token : ℕ) (rootChanged : Bool)
    (connecting : client.manager = .connecting) :
    ClientTasks.Steps client (.connected k c.session token c.resumed rootChanged)
      (greetedClient client k c token rootChanged) :=
  .connects k c.session token c.resumed rootChanged rfl connecting

/-- Everything one action can do to the client and the server together. -/
inductive Steps (s : System) (action : Protocol.Action) : System → Prop where
  | client (made : ClientTasks.Action) (client : Client) (named : action = .client made)
      (permitted : s.permits made = true) (moved : ClientTasks.Steps s.client made client) :
      Steps s action { s with client := client }
  | dials (connecting : s.client.manager = .connecting) (idle : s.current = none) :
      Steps s action { s with
        dials := s.dials ++ [⟨s.client.resume, none⟩], current := some s.dials.length }
  | hangsUp : Steps s action { s with current := none }
  | greets (d : ℕ) (resume : Option (ℕ × ℕ)) (server : Server)
      (found : s.dials[d]? = some ⟨resume, none⟩) (greets : Greets s.server resume server) :
      Steps s action { s with
        server := server
        dials := s.dials.set d ⟨resume, some s.server.conns.length⟩ }
  | connects (d k : ℕ) (dial : Dial) (c : ConnTask) (rootChanged : Bool)
      (current : s.current = some d) (found : s.dials[d]? = some dial) (conn : dial.conn = some k)
      (here : s.server.conns[k]? = some c) (written : acked c.stage = true)
      (connecting : s.client.manager = .connecting) :
      Steps s action { s with
        client := greetedClient s.client k c
          (s.server.sessions.states c.session).resumeToken rootChanged
        current := none }
  | creates (k token share : ℕ) (order : List ℕ) (server : Server)
      (moved : SessionTable.step s.server (.create k token order) = some server) :
      Steps s action { s with
        server := server
        shared := { s.shared with tables := s.shared.tables ++ [some (.new share)] } }
  | server (made : SessionTable.Action) (server : Server) (permitted : s.permitsServer made = true)
      (moved : SessionTable.step s.server made = some server) :
      Steps s action { s with server := server }
  | accepts (x : ℕ) (e : Sent) (server : Server) (found : s.client.sent[x]? = some e)
      (unaccepted : (s.served x).task = none)
      (moved : SessionTable.step s.server (.accept (s.connOf e)) = some server) :
      Steps s action ({ s with server := server }.setServed x { s.served x with
        task := some (s.server.sessions.states (s.sessionOf e)).requests.length })
  | serves (x : ℕ) (e : Sent) (i : ℕ) (serving : Serving) (server : Server)
      (named : action = .serve x serving) (found : s.client.sent[x]? = some e)
      (accepted : (s.served x).task = some i) (permitted : s.permitsServing x e serving = true)
      (moved : SessionTable.step s.server
        (.request (s.sessionOf e) (serving.on i e.req.changes)) = some server) :
      Steps s action ({ s with server := server }.setServed x { s.served x with
        fenced := (s.served x).fenced || s.fences x e serving })
  | works (x : ℕ) (e : Sent) (working : Working) (shared : Shared Opened) (work : Work)
      (found : s.client.sent[x]? = some e) (runs : s.runs x e = true)
      (moved : s.work x e working = some ({ s with shared := shared }.setWork x work)) :
      Steps s action ({ s with shared := shared }.setWork x work)
  | delivers (x : ℕ) (e : Sent) (whole : Bool) (task : RequestTask) (arrival : Arrival)
      (found : s.client.sent[x]? = some e) (known : s.taskOf x e = some task)
      (answers : s.answer x whole task = some arrival) :
      Steps s action (s.setServed x { s.served x with arrived := some arrival })
  | foreign (made : SharedHandles.Action Opened) (shared : Shared Opened)
      (permitted : s.permitsForeign made = true)
      (moved : SharedHandles.step s.shared made = some shared) :
      Steps s action { s with shared := shared }
  | closes (id : ℕ) (shared : Shared Opened) (unreferred : s.server.referred id = false)
      (moved : SharedHandles.step s.shared (.dropTable id) = some shared) :
      Steps s action { s with shared := shared }

theorem work_eq_some {x : ℕ} {e : Sent} {working : Working} (h : s.work x e working = some t) :
    ∃ shared work, t = { s with shared := shared }.setWork x work := by
  cases working with
  | look | heldAnswers | heldFails | runs =>
    simp only [System.work] at h
    split at h <;> cases h
    exact ⟨s.shared, _, rfl⟩
  | reserve | openFails | opens | release =>
    simp only [System.work] at h
    split at h
    · obtain ⟨shared, _, rfl⟩ := map_eq_some_iff.mp h
      exact ⟨shared, _, rfl⟩
    · cases h

theorem step_steps (h : Protocol.step s action = some t) : Steps s action t := by
  cases action with
  | client made =>
    simp only [Protocol.step] at h
    split_ifs at h with permitted
    obtain ⟨client, moved, rfl⟩ := map_eq_some_iff.mp h
    exact .client made client rfl permitted (ClientTasks.step_steps moved)
  | dial =>
    simp only [Protocol.step] at h
    split at h <;> cases h
    exact .dials (by assumption) (by assumption)
  | hangUp =>
    cases h
    exact .hangsUp
  | hello d =>
    simp only [Protocol.step] at h
    split at h
    · rename_i resume found
      obtain ⟨server, moved, rfl⟩ := map_eq_some_iff.mp h
      cases moved
      exact .greets d resume _ found (hello_greets resume)
    · cases h
  | connected rootChanged =>
    simp only [Protocol.step] at h
    split at h
    · rename_i k dialed
      obtain ⟨d, current, dialed⟩ := bind_eq_some_iff.mp dialed
      obtain ⟨dial, found, conn⟩ := bind_eq_some_iff.mp dialed
      split at h
      · rename_i c here
        split_ifs at h with written
        obtain ⟨client, moved, rfl⟩ := map_eq_some_iff.mp h
        simp only [ClientTasks.step] at moved
        split at moved <;> cases moved
        exact .connects d k dial c rootChanged current found conn here written (by assumption)
      · cases h
    · cases h
  | create k token share order =>
    simp only [Protocol.step] at h
    obtain ⟨server, moved, h⟩ := bind_eq_some_iff.mp h
    obtain ⟨_, made, rfl⟩ := map_eq_some_iff.mp h
    cases made
    exact .creates k token share order server moved
  | server made =>
    simp only [Protocol.step] at h
    split_ifs at h with permitted
    obtain ⟨server, moved, rfl⟩ := map_eq_some_iff.mp h
    exact .server made server permitted moved
  | accept x =>
    simp only [Protocol.step] at h
    split at h
    · rename_i e found unaccepted
      obtain ⟨server, moved, rfl⟩ := map_eq_some_iff.mp h
      exact .accepts x e server found unaccepted moved
    · cases h
  | serve x serving =>
    simp only [Protocol.step] at h
    split at h
    · rename_i e i found accepted
      split_ifs at h with permitted
      obtain ⟨server, moved, rfl⟩ := map_eq_some_iff.mp h
      exact .serves x e i serving server rfl found accepted permitted moved
    · cases h
  | work x working =>
    simp only [Protocol.step] at h
    split at h
    · rename_i e found
      split_ifs at h with runs
      obtain ⟨shared, work, rfl⟩ := work_eq_some h
      exact .works x e working shared work found runs h
    · cases h
  | deliver x whole =>
    simp only [Protocol.step] at h
    split at h
    · rename_i e found
      split_ifs at h
      obtain ⟨arrival, answers, rfl⟩ := map_eq_some_iff.mp h
      obtain ⟨task, known, answers⟩ := bind_eq_some_iff.mp answers
      exact .delivers x e whole task arrival found known answers
    · cases h
  | foreign made =>
    simp only [Protocol.step] at h
    split_ifs at h with permitted
    obtain ⟨shared, moved, rfl⟩ := map_eq_some_iff.mp h
    exact .foreign made shared permitted moved
  | close id =>
    simp only [Protocol.step] at h
    split_ifs at h with closed
    obtain ⟨shared, moved, rfl⟩ := map_eq_some_iff.mp h
    exact .closes id shared closed.2 moved

section Server

variable {v w : Server} {action : SessionTable.Action}

/-- Of two connections to one session the later one has the newer epoch. -/
def EpochsRise (v : Server) : Prop :=
  ∀ (i j : ℕ) (c d : ConnTask), v.conns[i]? = some c → v.conns[j]? = some d → c.stage ≠ .creating →
    d.stage ≠ .creating → c.session = d.session → i < j → c.epoch < d.epoch

theorem EpochsRise.step (known : Known v) (dated : Dated v) (h : EpochsRise v)
    (moved : SessionTable.Steps v action w) : EpochsRise w := by
  obtain ⟨new, origin⟩ := conns_origin moved
  intro i j c d hc hd namedC namedD session lt
  rcases origin i c hc with ⟨c', hc', staysC⟩ | ⟨rfl, comesC⟩ <;>
    rcases origin j d hd with ⟨d', hd', staysD⟩ | ⟨rfl, comesD⟩
  · rw [staysC.epoch, staysD.epoch]
    exact h i j c' d' hc' hd' (staysC.named.mp namedC) (staysD.named.mp namedD)
      (staysC.session.symm.trans (session.trans staysD.session)) lt
  · exact dated.newer known hc' staysC comesD namedD session
  · cases comesC with
    | waits => exact absurd rfl namedC
    | resumes =>
      have := lt_of_lookup hd'
      omega
    | creates =>
      have := known.conns d' (List.mem_of_getElem? hd')
      have := staysD.session
      simp only at session
      omega
  · exact absurd lt (Nat.lt_irrefl _)

/-- Apart from the calls made for its own requests, a step leaves the requests of a session, and may
add one. -/
theorem requests_grow (moved : SessionTable.Steps v action w) {id : ℕ}
    (request : ∀ made, action ≠ .request id made) (given : id ≤ v.sessions.nextId) :
    ∃ more, (w.sessions.states id).requests = (v.sessions.states id).requests ++ more := by
  cases session_effect moved id with
  | keeps _ _ same | resumes _ _ same => exact ⟨[], by simp [same]⟩
  | accepts c _ _ _ same => exact ⟨[⟨c.epoch, .accepted⟩], by rw [same]⟩
  | moves made named => exact absurd named (request made)
  | creates => omega

theorem honest_of_step (h : SessionTable.step v action = some w)
    (greeting : ∀ resume, action ≠ .hello resume) : Honest v w := by
  intro id given later
  refine absurd later (Nat.not_lt_of_le (Nat.le_of_eq ?_))
  unfold Sessions.epoch
  cases session_effect (SessionTable.step_steps h) id with
  | keeps _ _ same | accepts _ _ _ _ same => rw [same]
  | resumes resume named => exact absurd named (greeting resume)
  | moves _ _ moved => exact (request_attachment moved).1
  | creates => omega

theorem honest_of_greets {resume : Option (ℕ × ℕ)} (greets : Greets v resume w)
    (told : ∀ id token, resume = some (id, token) → (v.sessions.resume id token).isSome = true →
      Acknowledged v id) : Honest v w := by
  intro id given later
  cases greets with
  | resumes j token named _ done =>
    obtain ⟨_, _, states, _⟩ := Sessions.resume_eq_some done
    by_cases same : id = j
    · subst same
      exact told id token named (by simp [done])
    · simp only [Sessions.epoch, states, Function.update_of_ne same] at later
      exact absurd later (Nat.lt_irrefl _)
  | waits => exact absurd later (Nat.lt_irrefl _)

theorem request_token {st st' : SessionState} (moved : RequestSteps st st') :
    st'.resumeToken = st.resumeToken := by
  cases moved <;> rfl

theorem acknowledged_given {id : ℕ} (h : Acknowledged v id) (known : Known v) :
    id ≤ v.sessions.nextId := by
  obtain ⟨c, mem, rfl, _⟩ := h
  exact known.conns c mem

end Server

/-- Only a handshake changes the client's generation and what it resumes with, and only that ends the
manager's wait for a connection. -/
theorem client_keeps {c c' : Client} {action : ClientTasks.Action}
    (moved : ClientTasks.Steps c action c')
    (other : ∀ conn session token resumed rootChanged,
      action ≠ .connected conn session token resumed rootChanged) :
    c'.generation = c.generation ∧ c'.resume = c.resume ∧
      (c.manager = .connecting → c'.manager = .connecting) := by
  cases moved with
  | connects conn session token resumed rootChanged named =>
    exact absurd named (other conn session token resumed rootChanged)
  | roots _ _ greeted => exact ⟨rfl, rfl, by simp [greeted]⟩
  | moots rooted => exact ⟨rfl, rfl, by simp [rooted]⟩
  | fixes _ mooted => exact ⟨rfl, rfl, by simp [mooted]⟩
  | sendsReopen _ _ _ _ reopening => exact ⟨rfl, rfl, by simp [reopening]⟩
  | endsReopen _ _ _ _ _ _ _ reopening => exact ⟨rfl, rfl, by simp [reopening]⟩
  | publishes ready =>
    refine ⟨rfl, rfl, fun connecting => ?_⟩
    rcases ready with rooted | ⟨round, reopening, _⟩
    · simp [connecting] at rooted
    · simp [connecting] at reopening
  | reconnects => exact ⟨rfl, rfl, fun _ => rfl⟩
  | _ => exact ⟨rfl, rfl, id⟩

section Parts

section

variable (moved : Steps s action t)

include moved

/-- A joint step leaves the client alone, or is a step of the client that leaves the server alone. -/
theorem client_moves :
    t.client = s.client ∨
      (∃ made, ClientTasks.Steps s.client made t.client) ∧ t.server = s.server ∧
        t.served = s.served := by
  cases moved with
  | client made _ _ _ moved => exact .inr ⟨⟨made, moved⟩, rfl, rfl⟩
  | connects _ k _ c rootChanged _ _ _ _ _ connecting =>
    exact .inr ⟨⟨_, greetedClient_steps k c _ rootChanged connecting⟩, rfl, rfl⟩
  | _ => exact .inl rfl

theorem server_moves :
    t.server = s.server ∨ ∃ made, SessionTable.Steps s.server made t.server := by
  cases moved with
  | greets _ resume _ _ greets => exact .inr ⟨_, .greets resume greets⟩
  | creates _ _ _ _ _ moved | server _ _ _ moved
  | accepts _ _ _ _ _ moved
  | serves _ _ _ _ _ _ _ _ _ moved =>
    exact .inr ⟨_, SessionTable.step_steps moved⟩
  | _ => exact .inl rfl

theorem conn_keeps {k : ℕ} {c : ConnTask}
    (found : s.server.conns[k]? = some c) :
    ∃ c', t.server.conns[k]? = some c' ∧ ConnKeeps c c' := by
  rcases server_moves moved with same | ⟨_, moved⟩
  · exact ⟨c, same ▸ found, .refl c⟩
  · exact conns_keep moved k c found

theorem acknowledged_keeps {id : ℕ} (h : Acknowledged s.server id) :
    Acknowledged t.server id := by
  obtain ⟨c, mem, session, created, written⟩ := h
  obtain ⟨k, found⟩ := List.mem_iff_getElem?.mp mem
  obtain ⟨c', found', keeps⟩ := conn_keeps moved found
  exact ⟨c', List.mem_of_getElem? found', (keeps.same (named_of_acked written)).1.trans session,
    keeps.resumed.trans created, keeps.acked written⟩

theorem token_keeps {id : ℕ} (given : id ≤ s.server.sessions.nextId) :
    (t.server.sessions.states id).resumeToken = (s.server.sessions.states id).resumeToken := by
  rcases server_moves moved with same | ⟨_, moved⟩
  · rw [same]
  · cases session_effect moved id with
    | keeps _ _ same | resumes _ _ same | accepts _ _ _ _ same => rw [same]
    | moves _ _ moved => exact request_token moved
    | creates => omega

theorem dials_keep {d k : ℕ} {dial : Dial}
    (found : s.dials[d]? = some dial) (conn : dial.conn = some k) : t.dials[d]? = some dial := by
  cases moved with
  | dials => exact lookup_add found
  | greets _ _ _ here =>
    refine (lookup_write_of_ne ?_).trans found
    rintro rfl
    cases here.symm.trans found
    cases conn
  | _ => exact found

/-- A dial was there, is the client's new one, or was just taken up by the server. -/
theorem dial_origin {d : ℕ} {dial : Dial}
    (found : t.dials[d]? = some dial) :
    s.dials[d]? = some dial ∨ dial = ⟨s.client.resume, none⟩ ∨
      ∃ resume, s.dials[d]? = some ⟨resume, none⟩ ∧ dial = ⟨resume, some s.server.conns.length⟩ ∧
        Greets s.server resume t.server := by
  cases moved with
  | dials =>
    rcases of_lookup_add found with found | ⟨_, rfl⟩
    · exact .inl found
    · exact .inr (.inl rfl)
  | greets _ resume _ here greets =>
    rcases of_lookup_write found with ⟨rfl, rfl⟩ | ⟨_, old⟩
    · exact .inr (.inr ⟨resume, here, rfl, greets⟩)
    · exact .inl old
  | _ => exact .inl found

end

/-- The client takes connection `k`, whose task at the server is `c`, from its dial `d`. -/
structure Takes (s t : System) (d k : ℕ) (dial : Dial) (c : ConnTask) : Prop where
  current : s.current = some d
  found : s.dials[d]? = some dial
  conn : dial.conn = some k
  here : s.server.conns[k]? = some c
  written : acked c.stage = true
  generation : t.client.generation = s.client.generation + 1
  attached : t.client.attached (s.client.generation + 1) =
    ⟨k, c.session, c.resumed, .new (s.client.generation + 1), true⟩
  resume : t.client.resume = some (c.session, (s.server.sessions.states c.session).resumeToken)
  same : t.server = s.server ∧ t.dials = s.dials

/-- Only a connection that the client takes changes its generation and what it resumes with. -/
theorem generation_moves (moved : Steps s action t) :
    t.client.generation = s.client.generation ∧ t.client.resume = s.client.resume ∨
      ∃ d k dial c, Takes s t d k dial c := by
  cases moved with
  | client _ _ _ permitted moved =>
    left
    have keeps := client_keeps moved (by rintro _ _ _ _ _ rfl; cases permitted)
    exact ⟨keeps.1, keeps.2.1⟩
  | connects d k dial c _ current found conn here written =>
    exact .inr ⟨d, k, dial, c, current, found, conn, here, written, rfl,
      by simp [greetedClient], rfl, rfl, rfl⟩
  | _ => exact .inl ⟨rfl, rfl⟩

theorem attached_keeps (moved : Steps s action t) {g : ℕ} (le : g ≤ s.client.generation) :
    Reattaches (s.client.attached g) (t.client.attached g) := by
  rcases client_moves moved with same | ⟨⟨made, moved⟩, _⟩
  · rw [same]
    exact .refl _
  · exact attached_reattaches moved le

/-- A connection that the client has was there before the step, or it has just taken it. -/
theorem attached_origin (moved : Steps s action t) {g : ℕ} (le : g ≤ t.client.generation) :
    g ≤ s.client.generation ∧ Reattaches (s.client.attached g) (t.client.attached g) ∨
      g = s.client.generation + 1 ∧ ∃ d k dial c, Takes s t d k dial c := by
  by_cases old : g ≤ s.client.generation
  · exact .inl ⟨old, attached_keeps moved old⟩
  · rcases generation_moves moved with ⟨same, _⟩ | ⟨d, k, dial, c, takes⟩
    · omega
    · have := takes.generation
      exact .inr ⟨by omega, d, k, dial, c, takes⟩

/-- What is known of the exchanges stays apart from what a step changes in one. -/
theorem setServed_keeps {α : Type} (part : Served → α) {known : ℕ → Served} {x y : ℕ}
    {served : Served} (same : part served = part (known y)) :
    part (Function.update known y served x) = part (known x) := by
  rw [Function.update_apply]
  split_ifs with eq
  · rw [same, eq]
  · rfl

end Parts

/-- The client's connections are connections of the server, in the order in which they were dialed,
and every token in use is that of an acknowledged session. -/
structure Linked (s : System) : Prop where
  marked : Marked s.client
  wired : Wired s.client
  called : Called s.client
  attended : Attended s.server
  rise : EpochsRise s.server
  attached : ∀ g, 0 < g → g ≤ s.client.generation →
    ∃ c, s.server.conns[(s.client.attached g).conn]? = some c ∧ acked c.stage = true ∧
      c.session = (s.client.attached g).session ∧ c.resumed = (s.client.attached g).resumed ∧
      s.dialed (s.client.attached g).conn = true
  told : ∀ g, 0 < g → g ≤ s.client.generation →
    Acknowledged s.server (s.client.attached g).session
  order : ∀ g g', 0 < g → g < g' → g' ≤ s.client.generation →
    (s.client.attached g).conn < (s.client.attached g').conn
  resumed : ∀ g, 0 < g → g < s.client.generation → (s.client.attached (g + 1)).resumed = true →
    (s.client.attached (g + 1)).session = (s.client.attached g).session
  resume : s.client.resume =
    if s.client.generation = 0 then none
    else some ((s.client.attached s.client.generation).session,
      (s.server.sessions.states (s.client.attached s.client.generation).session).resumeToken)
  dials : ∀ (d : ℕ) (dial : Dial) (id token : ℕ), s.dials[d]? = some dial →
    dial.resume = some (id, token) →
    Acknowledged s.server id ∧ (s.server.sessions.states id).resumeToken = token
  greeted : ∀ (d : ℕ) (dial : Dial) (k : ℕ), s.dials[d]? = some dial → dial.conn = some k →
    ∃ c, s.server.conns[k]? = some c ∧
      (c.resumed = true → c.stage ≠ .creating ∧ ∃ token, dial.resume = some (c.session, token))
  current : ∀ d, s.current = some d → s.client.manager = .connecting ∧
    ∃ dial, s.dials[d]? = some dial ∧ dial.resume = s.client.resume ∧
      ∀ k, dial.conn = some k → ∀ g, 0 < g → g ≤ s.client.generation →
        (s.client.attached g).conn < k

namespace Linked

theorem new (capacity : ℕ) : Linked (.new capacity) where
  marked := .new
  wired := .new
  called := .new
  attended := .new
  rise := by simp [EpochsRise, System.new, Server.new]
  attached := fun g positive le => absurd le (by simp [System.new, Client.new]; omega)
  told := fun g positive le => absurd le (by simp [System.new, Client.new]; omega)
  order := fun g g' _ _ le => absurd le (by simp [System.new, Client.new]; omega)
  resumed := fun g _ lt => absurd lt (by simp [System.new, Client.new])
  resume := rfl
  dials := by simp [System.new]
  greeted := by simp [System.new]
  current := by simp [System.new]

theorem given (h : Linked s) {g : ℕ} (positive : 0 < g) (le : g ≤ s.client.generation) :
    (s.client.attached g).session ≤ s.server.sessions.nextId :=
  acknowledged_given (h.told g positive le) h.attended.sound.known

theorem honest (h : Linked s) (moved : Steps s action t) : Honest s.server t.server := by
  cases moved with
  | greets d _ _ found greets =>
    exact honest_of_greets greets fun id token named _ => (h.dials d _ id token found named).1
  | server made _ permitted moved =>
    cases made with
    | hello resume =>
      cases moved
      refine honest_of_greets (hello_greets resume) fun id token named resumes => ?_
      subst named
      simp only [System.permitsServer, Bool.or_eq_true, Bool.and_eq_true] at permitted
      rcases permitted with refused | ⟨_, acknowledged⟩
      · rw [isNone_iff_eq_none] at refused
        simp [refused] at resumes
      · obtain ⟨c, mem, told⟩ := List.any_eq_true.mp acknowledged
        simp only [Bool.and_eq_true, beq_iff_eq, Bool.not_eq_true'] at told
        exact ⟨c, mem, told.1.1, told.1.2, told.2⟩
    | _ => exact honest_of_step moved (by simp)
  | creates _ _ _ _ _ moved | accepts _ _ _ _ _ moved
  | serves _ _ _ _ _ _ _ _ _ moved =>
    exact honest_of_step moved (by simp)
  | _ => exact fun _ _ later => absurd later (Nat.lt_irrefl _)

theorem dialed_keeps (moved : Steps s action t) {k : ℕ} (h : s.dialed k = true) :
    t.dialed k = true := by
  obtain ⟨dial, mem, conn⟩ := List.any_eq_true.mp h
  obtain ⟨d, found⟩ := List.mem_iff_getElem?.mp mem
  exact List.any_eq_true.mpr
    ⟨dial, List.mem_of_getElem? (dials_keep moved found (beq_iff_eq.mp conn)), conn⟩

theorem resumes_of_takes (h : Linked s) {d k : ℕ} {dial : Dial} {c : ConnTask}
    (takes : Takes s t d k dial c) (resumed : c.resumed = true) :
    ∃ token, dial.resume = some (c.session, token) := by
  obtain ⟨_, here, resumes⟩ := h.greeted d dial k takes.found takes.conn
  cases takes.here.symm.trans here
  exact (resumes resumed).2

section

variable (h : Linked s) (moved : Steps s action t)

include h moved

theorem client_step :
    Marked t.client ∧ Wired t.client ∧ Called t.client := by
  rcases client_moves moved with same | ⟨⟨_, moves⟩, _⟩
  · rw [same]
    exact ⟨h.marked, h.wired, h.called⟩
  · exact ⟨h.marked.step moves, h.wired.step h.marked moves, h.called.step h.marked h.wired moves⟩

theorem server_step :
    Attended t.server ∧ EpochsRise t.server := by
  rcases server_moves moved with same | ⟨_, moves⟩
  · rw [same]
    exact ⟨h.attended, h.rise⟩
  · exact ⟨h.attended.step moves (h.honest moved),
      h.rise.step h.attended.sound.known h.attended.sound.dated moves⟩

theorem current_step {d : ℕ} (here : t.current = some d) :
    t.client.manager = .connecting ∧
      ∃ dial, t.dials[d]? = some dial ∧ dial.resume = t.client.resume ∧
        ∀ k, dial.conn = some k → ∀ g, 0 < g → g ≤ t.client.generation →
          (t.client.attached g).conn < k := by
  cases moved with
  | client _ _ _ permitted moved =>
    obtain ⟨generation, resume, connecting⟩ :=
      client_keeps moved (by rintro _ _ _ _ _ rfl; cases permitted)
    obtain ⟨waits, dial, found, same, later⟩ := h.current d here
    refine ⟨connecting waits, dial, found, same.trans resume.symm, fun k conn g positive le => ?_⟩
    rw [(attached_reattaches moved (generation ▸ le)).conn]
    exact later k conn g positive (generation ▸ le)
  | dials connecting =>
    cases here
    exact ⟨connecting, ⟨s.client.resume, none⟩, by simp, rfl, by simp⟩
  | hangsUp | connects => cases here
  | greets d' resume server found =>
    obtain ⟨connecting, dial, old, same, later⟩ := h.current d here
    refine ⟨connecting, ?_⟩
    by_cases eq : d = d'
    · subst eq
      cases found.symm.trans old
      refine ⟨⟨resume, some s.server.conns.length⟩, lookup_write found, same,
        fun k conn g positive le => ?_⟩
      cases conn
      obtain ⟨c, here, _⟩ := h.attached g positive le
      exact lt_of_lookup here
    · exact ⟨dial, (lookup_write_of_ne eq).trans old, same, later⟩
  | _ => exact h.current d here

theorem step : Linked t where
  marked := (h.client_step moved).1
  wired := (h.client_step moved).2.1
  called := (h.client_step moved).2.2
  attended := (h.server_step moved).1
  rise := (h.server_step moved).2
  attached g positive le := by
    rcases attached_origin moved le with ⟨le, same⟩ | ⟨rfl, d, k, dial, c, takes⟩
    · obtain ⟨c, here, written, session, resumed, dialed⟩ := h.attached g positive le
      obtain ⟨c', there, keeps⟩ := conn_keeps moved here
      simp only [same.conn, same.session, same.resumed]
      exact ⟨c', there, keeps.acked written, (keeps.same (named_of_acked written)).1.trans session,
        keeps.resumed.trans resumed, dialed_keeps moved dialed⟩
    · simp only [takes.attached, takes.same.1]
      refine ⟨c, takes.here, takes.written, rfl, rfl, ?_⟩
      rw [System.dialed, takes.same.2]
      exact List.any_eq_true.mpr ⟨dial, List.mem_of_getElem? takes.found, by simp [takes.conn]⟩
  told g positive le := by
    rcases attached_origin moved le with ⟨le, same⟩ | ⟨rfl, d, k, dial, c, takes⟩
    · rw [same.session]
      exact acknowledged_keeps moved (h.told g positive le)
    · simp only [takes.attached, takes.same.1]
      cases resumed : c.resumed with
      | false => exact ⟨c, List.mem_of_getElem? takes.here, rfl, resumed, takes.written⟩
      | true =>
        obtain ⟨token, word⟩ := h.resumes_of_takes takes resumed
        exact (h.dials d dial c.session token takes.found word).1
  order g g' positive lt le := by
    rcases attached_origin moved le with ⟨le, same⟩ | ⟨rfl, d, k, dial, c, takes⟩
    · rw [(attached_keeps moved (by omega)).conn, same.conn]
      exact h.order g g' positive lt le
    · obtain ⟨_, _, found, _, later⟩ := h.current d takes.current
      cases takes.found.symm.trans found
      rw [(attached_keeps moved (by omega)).conn, takes.attached]
      exact later k takes.conn g positive (by omega)
  resumed g positive lt resumed := by
    rcases attached_origin moved lt with ⟨le, same⟩ | ⟨new, d, k, dial, c, takes⟩
    · rw [same.resumed] at resumed
      rw [same.session, (attached_keeps moved (Nat.le_of_lt le)).session]
      exact h.resumed g positive le resumed
    · -- A resumed connection is one to the session that the client would resume.
      cases Nat.succ.inj new
      simp only [takes.attached] at resumed ⊢
      obtain ⟨token, word⟩ := h.resumes_of_takes takes resumed
      obtain ⟨_, _, found, same, _⟩ := h.current d takes.current
      cases takes.found.symm.trans found
      rw [same, h.resume, if_neg (by omega)] at word
      rw [(attached_keeps moved (Nat.le_refl _)).session]
      exact (Prod.mk.inj (Option.some.inj word)).1.symm
  resume := by
    rcases generation_moves moved with ⟨same, resume⟩ | ⟨d, k, dial, c, takes⟩
    · rw [resume, same, h.resume]
      split_ifs with first
      · rfl
      · rw [(attached_keeps moved (Nat.le_refl _)).session,
          token_keeps moved (h.given (Nat.pos_of_ne_zero first) (Nat.le_refl _))]
    · simp [takes.resume, takes.generation, takes.attached, takes.same.1]
  dials d dial id token found named := by
    have before : Acknowledged s.server id ∧ (s.server.sessions.states id).resumeToken = token := by
      rcases dial_origin moved found with old | rfl | ⟨resume, old, rfl, _⟩
      · exact h.dials d dial id token old named
      · -- The new dial resumes what the client would resume now.
        simp only [h.resume] at named
        split_ifs at named with first
        cases named
        exact ⟨h.told _ (Nat.pos_of_ne_zero first) (Nat.le_refl _), rfl⟩
      · exact h.dials d _ id token old named
    have given := acknowledged_given before.1 h.attended.sound.known
    exact ⟨acknowledged_keeps moved before.1, (token_keeps moved given).trans before.2⟩
  greeted d dial k found conn := by
    rcases dial_origin moved found with old | rfl | ⟨resume, old, rfl, greets⟩
    · obtain ⟨c, here, resumed⟩ := h.greeted d dial k old conn
      obtain ⟨c', there, keeps⟩ := conn_keeps moved here
      refine ⟨c', there, fun again => ?_⟩
      obtain ⟨named, word, same⟩ := resumed (keeps.resumed.symm.trans again)
      exact ⟨keeps.named named, word, by rw [(keeps.same named).1, same]⟩
    · cases conn
    · cases conn
      generalize t.server = server at greets
      cases greets with
      | resumes id token named resumed =>
        exact ⟨⟨id, resumed.epoch id, true, .handshake⟩, by simp, fun _ => ⟨by simp, token, named⟩⟩
      | waits => exact ⟨⟨0, 0, false, .creating⟩, by simp, by simp⟩
  current _ := h.current_step moved

end

end Linked

end JackalopeFs.ProtocolLinks
