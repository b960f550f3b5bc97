import JackalopeFs.SessionOwnership

/-! # Sessions whose tokens only their own clients know

A session's token reaches a client with the Ack of the handshake that created it.
While nobody resumes a session before that, more can be said than of arbitrary
hellos: the creator of an unacknowledged session is alone with it, every epoch
belongs to one connection, and a connection at a session's epoch keeps the session
in the table.  With it, a session that cannot be resumed has nothing left that could
still run.  The module also sums up what any step leaves unchanged of connections
and of requests.
-/

namespace JackalopeFs.SessionAttendance

open IndexedCells List SessionExchange SessionOwnership SessionTable TransitionRuns

variable {s t : Server} {action : SessionTable.Action}

def acked : ConnStage → Bool
  | .acked | .registered | .attached | .unregistered | .detached | .ended => true
  | .creating | .handshake | .failed => false

theorem named_of_acked {stage : ConnStage} (written : acked stage = true) : stage ≠ .creating := by
  rintro rfl
  cases written

theorem named_of_owns {stage : ConnStage} (owns : stage.owns = true) : stage ≠ .creating := by
  rintro rfl
  cases owns

/-- No request will be accepted on the connection any more. -/
def past : ConnStage → Bool
  | .failed | .unregistered | .detached | .ended => true
  | .creating | .handshake | .acked | .registered | .attached => false

/-- What stays of a connection's task from one step to the next. -/
structure ConnKeeps (c c' : ConnTask) : Prop where
  same : c.stage ≠ .creating → c'.session = c.session ∧ c'.epoch = c.epoch
  resumed : c'.resumed = c.resumed
  named : c.stage ≠ .creating → c'.stage ≠ .creating
  acked : acked c.stage = true → acked c'.stage = true
  past : past c.stage = true → past c'.stage = true

theorem ConnKeeps.refl (c : ConnTask) : ConnKeeps c c :=
  ⟨fun _ => ⟨rfl, rfl⟩, rfl, id, id, id⟩

theorem ConnKeeps.of_stays {c c' : ConnTask} (h : Stays c c') : ConnKeeps c c' := by
  refine ⟨fun _ => ⟨h.session, h.epoch⟩, h.resumed, h.named.mpr, ?_, ?_⟩ <;>
  · rcases h.stage with same | moves
    · rw [same]
      exact id
    · generalize c.stage = was, c'.stage = stage at moves
      cases moves <;> decide

theorem conns_keep (moved : Steps s action t) (k : ℕ) (c : ConnTask) (found : s.conns[k]? = some c) :
    ∃ c', t.conns[k]? = some c' ∧ ConnKeeps c c' := by
  obtain ⟨c', found', stays | ⟨waiting, resumed, stage⟩⟩ := conns_stay moved found
  · exact ⟨c', found', .of_stays stays⟩
  · exact ⟨c', found', fun named => absurd waiting named, resumed, by simp [stage],
      by simp [waiting, acked], by simp [waiting, past]⟩

/-- The handshake that created session `id` was acknowledged. -/
def Acknowledged (s : Server) (id : ℕ) : Prop :=
  ∃ c ∈ s.conns, c.session = id ∧ c.resumed = false ∧ acked c.stage = true

/-- Nobody resumes a session whose creation was not acknowledged. -/
def Honest (s t : Server) : Prop :=
  ∀ id, id ≤ s.sessions.nextId → s.sessions.epoch id < t.sessions.epoch id → Acknowledged s id

/-- Every epoch of a session belongs to one connection. -/
def EpochsApart (s : Server) : Prop :=
  ∀ (i j : ℕ) (c d : ConnTask), s.conns[i]? = some c → s.conns[j]? = some d →
    c.stage ≠ .creating → d.stage ≠ .creating → c.session = d.session → c.epoch = d.epoch → i = j

/-- The connection that creates a session is alone with it until its Ack is written. -/
def Alone (s : Server) : Prop :=
  ∀ (i j : ℕ) (c d : ConnTask), s.conns[i]? = some c → s.conns[j]? = some d → c.fresh →
    acked c.stage = false → d.stage ≠ .creating → c.session = d.session → i = j

/-- A connection at its session's epoch keeps the session in the table until its own end. -/
def Attends (s : Server) : Prop :=
  ∀ (k : ℕ) (c : ConnTask), s.conns[k]? = some c → c.stage.owns = true →
    c.epoch = s.sessions.epoch c.session →
    c.session ∈ s.sessions.map ∧ s.sessions.detachedAt c.session = none

def terminal : PhaseExchange → Bool
  | .cancelled | .superseded | .dropped | .finished => true
  | .held | .ready | .running | .abandoned => false

/-- Every exchange among these tasks that has not ended holds the session. -/
def HeldByAll (tasks : List RequestTask) : Prop :=
  ∀ task ∈ tasks, ∀ x, task.stage = .exchange x → x.holder = false → terminal x.phase = true

def Holding (s : Server) : Prop :=
  ∀ id, HeldByAll (s.sessions.states id).requests

theorem EpochsApart.step (known : Known s) (dated : Dated s) (h : EpochsApart s)
    (moved : Steps s action t) : EpochsApart t := by
  obtain ⟨new, origin⟩ := conns_origin moved
  intro i j c d hc hd namedC namedD session epoch
  rcases origin i c hc with ⟨c', hc', staysC⟩ | ⟨rfl, comesC⟩ <;>
    rcases origin j d hd with ⟨d', hd', staysD⟩ | ⟨rfl, comesD⟩
  · exact h i j c' d' hc' hd' (staysC.named.mp namedC) (staysD.named.mp namedD)
      (staysC.session.symm.trans (session.trans staysD.session))
      (staysC.epoch.symm.trans (epoch.trans staysD.epoch))
  · exact absurd epoch (Nat.ne_of_lt (dated.newer known hc' staysC comesD namedD session))
  · exact absurd epoch.symm (Nat.ne_of_lt (dated.newer known hd' staysD comesC namedC session.symm))
  · rfl

theorem Alone.step (known : Known s) (givenOnce : GivenOnce s) (h : Alone s)
    (moved : Steps s action t) (honest : Honest s t) : Alone t := by
  obtain ⟨new, origin⟩ := conns_origin moved
  intro i j c d hc hd fresh unacked namedD session
  rcases origin i c hc with ⟨c', hc', staysC⟩ | ⟨rfl, comesC⟩ <;>
    rcases origin j d hd with ⟨d', hd', staysD⟩ | ⟨rfl, comesD⟩
  · refine h i j c' d' hc' hd' (staysC.fresh fresh) ?_ (staysD.named.mp namedD)
      (staysC.session.symm.trans (session.trans staysD.session))
    exact Bool.eq_false_iff.mpr fun ack =>
      absurd ((ConnKeeps.of_stays staysC).acked ack) (by simp [unacked])
  · cases comesD with
    | waits => exact absurd rfl namedD
    | resumes id _ from' =>
      -- The creator of the resumed session had its Ack written, so it is no more alone.
      have given : id ≤ s.sessions.nextId := from'.elim (known.map id) (known.dropped id)
      obtain ⟨e, mem, same, created, written⟩ := honest id given (by omega)
      obtain ⟨k, he⟩ := mem_iff_getElem?.mp mem
      obtain rfl := givenOnce i k c' e hc' he (staysC.fresh fresh) ⟨created, named_of_acked written⟩
        (staysC.session.symm.trans (session.trans same.symm))
      cases hc'.symm.trans he
      exact absurd ((ConnKeeps.of_stays staysC).acked written) (by simp [unacked])
    | creates =>
      have := known.conns c' (mem_of_getElem? hc')
      have := staysC.session
      simp only at session
      omega
  · have := comesC.above fresh
    have := known.conns d' (mem_of_getElem? hd')
    have := staysD.session
    omega
  · rfl

theorem Attends.step (known : Known s) (dated : Dated s) (apart : EpochsApart s) (alone : Alone s)
    (h : Attends s) (moved : Steps s action t) : Attends t := by
  obtain ⟨new, origin⟩ := conns_origin moved
  intro k c found owns current
  rcases origin k c found with ⟨d, here, stays⟩ | ⟨_, comes⟩
  swap
  · cases comes with
    | waits => cases owns
    | resumes _ _ _ mem _ attached | creates _ _ _ _ mem _ attached => exact ⟨mem, attached⟩
  have ownsD : d.stage.owns = true := by
    rcases stays.stage with same | moves
    · rw [← same, owns]
    · generalize d.stage = was, c.stage = stage at moves owns
      cases moves <;> first | rfl | cases owns
  have currentD : d.epoch = s.sessions.epoch d.session := by
    have listed := mem_of_getElem? here
    have := epoch_grows moved (known.conns d listed)
    have := dated.conns d listed
    rw [stays.session, stays.epoch] at current
    omega
  obtain ⟨mem, attached⟩ := h k d here ownsD currentD
  rw [stays.session]
  cases moved with
  | greets _ greets =>
    cases greets with
    | resumes _ _ _ _ done =>
      obtain ⟨_, _, states, map, _⟩ := Sessions.resume_eq_some done
      simp only [map, Sessions.detachedAt, states, Function.update_apply]
      refine ⟨Finset.mem_insert_of_mem mem, ?_⟩
      split_ifs
      · rfl
      · exact attached
    | waits => exact ⟨mem, attached⟩
  | creates _ _ _ order =>
    have room := @Sessions.retireAll_retires s.sessions s.referred (s.sessions.crowdedOut order)
    have ne : d.session ≠ s.sessions.nextId + 1 := by
      have := known.map _ mem
      omega
    simp only [Sessions.create, Sessions.detachedAt, Function.update_of_ne ne, room.states]
    refine ⟨Finset.mem_insert_of_mem ((room.mem_map _).mpr ⟨mem, fun crowded => ?_⟩), attached⟩
    exact Sessions.detachedAt_of_mem_crowdedOut crowded attached
  | failsResumed j e _ there stage | detaches j e _ there stage =>
    -- Whoever detaches a session at its epoch is its only owner at that epoch.
    rw [Sessions.detach_map, Sessions.detach_detachedAt, if_neg]
    · exact ⟨mem, attached⟩
    · rintro ⟨session, _, epoch⟩
      obtain rfl := apart k j d e here there (named_of_owns ownsD) (by simp [stage]) session
        (by rw [currentD, session, epoch])
      cases (lookup_write there).symm.trans found
      cases owns
  | failsFresh j e _ there stage fresh =>
    refine ⟨Finset.mem_erase.mpr ⟨fun session => ?_, mem⟩, attached⟩
    obtain rfl := alone j k e d there here ⟨fresh, by simp [stage]⟩ (by simp [stage, acked])
      (named_of_owns ownsD) session.symm
    cases (lookup_write there).symm.trans found
    cases owns
  | acks | turnedAway | registers | unregisters => exact ⟨mem, attached⟩
  | attaches | letsGo | accepts =>
    refine ⟨mem, ?_⟩
    simp only [Sessions.detachedAt, Sessions.update_states]
    split_ifs with same
    · exact same ▸ attached
    · exact attached
  | requests _ _ _ moved =>
    obtain ⟨epoch, since⟩ := request_attachment moved
    exact ⟨mem, (Sessions.update_attached epoch since _).2.trans attached⟩
  | reaps _ _ _ ids waiting =>
    have room := @Sessions.retireAll_retires s.sessions s.referred ids
    simp only [Sessions.detachedAt, room.states]
    exact ⟨(room.mem_map _).mpr ⟨mem, fun listed => waiting _ listed attached⟩, attached⟩

theorem request_holding {st st' : SessionState} (moved : RequestSteps st st')
    (h : HeldByAll st.requests) : HeldByAll st'.requests := by
  intro task mem x stage dropped
  cases moved with
  | undecodes =>
    rcases mem_or_eq_of_mem_set mem with mem | rfl
    · exact h task mem x stage dropped
    · cases stage
  | decodes =>
    rcases mem_or_eq_of_mem_set mem with mem | rfl
    · exact h task mem x stage dropped
    · cases stage
      rw [fencing_new] at dropped
      cases dropped
  | moves _ _ y _ _ found move =>
    rcases mem_or_eq_of_mem_set mem with mem | rfl
    · exact h task mem x stage dropped
    · cases stage
      have before := h _ (mem_of_getElem? found) y rfl
      cases move with
      | stays => exact before dropped
      | starts _ ready | startsUnordered _ ready =>
        simp [ready, terminal] at before
        simp [before] at dropped
      | drains held =>
        simp [held, terminal] at before
        simp [before] at dropped
      | abandonsCurrent _ running | abandonsOlder _ running =>
        simp [running, terminal] at before
        simp [before] at dropped
      | endsUnbegun _ _ ends =>
        rcases ends with rfl | ⟨rfl, _⟩ | rfl <;> rfl
      | finishesUnordered | finishesCurrent | finishesAbandoned | finishesOlder => rfl

theorem Holding.step (h : Holding s) (moved : Steps s action t) : Holding t := by
  intro id
  cases session_effect moved id with
  | keeps _ _ same | resumes _ _ same =>
    rw [same]
    exact h id
  | accepts _ _ _ _ same =>
    rw [same]
    intro task mem x stage
    rcases mem_append.mp mem with mem | mem
    · exact h id task mem x stage
    · rw [mem_singleton.mp mem] at stage
      cases stage
  | moves _ _ moved => exact request_holding moved (h id)
  | creates _ _ same => simp [same, SessionState.new, HeldByAll]

/-- All the invariants of the session table while tokens are only known to their clients. -/
structure Attended (s : Server) : Prop where
  sound : Sound s
  apart : EpochsApart s
  alone : Alone s
  attends : Attends s
  holding : Holding s

theorem Attended.new : Attended .new where
  sound := .new
  apart := by simp [EpochsApart, Server.new]
  alone := by simp [Alone, Server.new]
  attends := by simp [Attends, Server.new]
  holding := by simp [Holding, HeldByAll, Server.new, Sessions.new, SessionState.new]

theorem Attended.step (h : Attended s) (moved : Steps s action t) (honest : Honest s t) :
    Attended t where
  sound := h.sound.step moved
  apart := h.apart.step h.sound.known h.sound.dated moved
  alone := h.alone.step h.sound.known h.sound.givenOnce moved honest
  attends := h.attends.step h.sound.known h.sound.dated h.apart h.alone moved
  holding := h.holding.step moved

def ended (task : RequestTask) : Bool :=
  match task.stage with
  | .accepted => false
  | .undecoded => true
  | .exchange x => terminal x.phase

/-- An acknowledged session that refuses its own token has nothing left that could run: its requests
have ended, and its connections are past accepting any or are of an older epoch. -/
theorem Attended.refused (h : Attended s) {id : ℕ} (known : Acknowledged s id)
    (refused : s.sessions.resume id (s.sessions.states id).resumeToken = none) :
    (∀ task ∈ (s.sessions.states id).requests, ended task = true) ∧
      ∀ (k : ℕ) (c : ConnTask), s.conns[k]? = some c → c.session = id → c.stage ≠ .creating →
        past c.stage = true ∨ c.epoch < s.sessions.epoch id := by
  have outside : id ∉ s.sessions.map := by
    intro mem
    simp [Sessions.resume, mem] at refused
  have free : id ∈ s.sessions.dropped → (s.sessions.states id).holders = 0 := by
    intro mem
    by_contra held
    simp [Sessions.resume, outside, mem, held] at refused
  have remembered : ¬ Forgotten s id := by
    rintro ⟨c, mem, rfl, created, failed⟩
    obtain ⟨d, mem', session, created', written⟩ := known
    obtain ⟨i, hi⟩ := mem_iff_getElem?.mp mem
    obtain ⟨j, hj⟩ := mem_iff_getElem?.mp mem'
    have named := named_of_acked written
    obtain rfl := h.sound.givenOnce i j c d hi hj ⟨created, by simp [failed]⟩ ⟨created', named⟩
      session.symm
    cases hi.symm.trans hj
    rw [failed] at written
    cases written
  have idle : s.referred id = true → (s.sessions.states id).holders = 0 := fun refers =>
    free (((h.sound.kept id refers).resolve_left outside).resolve_right remembered)
  constructor
  · intro task mem
    have unheld : task.holds = false := by
      cases holds : task.holds with
      | false => rfl
      | true =>
        have zero := idle (referred_iff.mpr (.inr (any_eq_true.mpr ⟨task, mem, holds⟩)))
        have counted : 0 < (s.sessions.states id).requests.countP RequestTask.holds :=
          countP_pos_iff.mpr ⟨task, mem, holds⟩
        have := h.sound.held id
        omega
    obtain ⟨epoch, stage⟩ := task
    cases stage with
    | accepted => cases unheld
    | undecoded => rfl
    | exchange x => exact h.holding id _ mem x rfl unheld
  · rintro k c found rfl named
    by_cases gone : past c.stage = true
    · exact .inl gone
    · refine .inr (lt_of_le_of_ne (h.sound.dated.conns c (mem_of_getElem? found)) ?_)
      intro current
      -- At the session's own epoch the connection would keep the session in the table.
      have owns : c.stage.owns = true := by
        cases stage : c.stage <;> simp_all [past, ConnStage.owns]
      exact outside (h.attends k c found owns current).1

end JackalopeFs.SessionAttendance
