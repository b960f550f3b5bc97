import JackalopeFs.SessionTable

/-! # Who owns a session, and what keeps it resumable

Invariants of the server's session table over every interleaving of handshakes,
takeovers, connection ends, requests and the reaper.  Each is preserved by every
step; together they give the soundness theorem at the end: ids are given once, a
session is in one table at most, an attached session's epoch has an owner whose end
detaches it, and a dropped session with something under way can be resumed.
-/

namespace JackalopeFs.SessionOwnership

open IndexedCells List SessionExchange SessionTable TransitionRuns

variable {s t : Server} {action : SessionTable.Action}

/-- Ids are given in order: nothing anywhere names one that was not given yet. -/
structure Known (s : Server) : Prop where
  map : ∀ id ∈ s.sessions.map, id ≤ s.sessions.nextId
  dropped : ∀ id ∈ s.sessions.dropped, id ≤ s.sessions.nextId
  conns : ∀ c ∈ s.conns, c.session ≤ s.sessions.nextId
  registry : ∀ id e, s.connections id = some e → id ≤ s.sessions.nextId

/-- An entry of the registry was there before, or is made by a connection that was. -/
theorem registry_origin (moved : Steps s action t) {id e : ℕ} (entry : t.connections id = some e) :
    s.connections id = some e ∨ ∃ c ∈ s.conns, c.session = id ∧ c.epoch = e := by
  cases moved with
  | registers _ c found =>
    simp only [Function.update_apply] at entry
    split_ifs at entry with same
    · exact .inr ⟨c, mem_of_getElem? found, same.symm, Option.some.inj entry⟩
    · exact .inl entry
  | unregisters =>
    split_ifs at entry
    · simp only [Function.update_apply] at entry
      split_ifs at entry
      exact .inl entry
    · exact .inl entry
  | greets _ greets => cases greets <;> exact .inl entry
  | _ => exact .inl entry

theorem Known.step (h : Known s) (moved : Steps s action t) : Known t := by
  have tables : s.sessions.nextId ≤ t.sessions.nextId ∧
      (∀ id ∈ t.sessions.map, id ≤ t.sessions.nextId) ∧
      ∀ id ∈ t.sessions.dropped, id ≤ t.sessions.nextId := by
    cases moved with
    | greets _ greets =>
      cases greets with
      | resumes id _ _ _ done =>
        obtain ⟨origin, _, _, map, nextId, dropped, _⟩ := Sessions.resume_eq_some done
        have known : id ≤ s.sessions.nextId := origin.elim (h.map id) fun o => h.dropped id o.1
        simp only [map, nextId]
        refine ⟨Nat.le_refl _, fun j mem => ?_, fun j mem => h.dropped j (dropped j mem).1⟩
        rcases Finset.mem_insert.mp mem with rfl | mem
        · exact known
        · exact h.map j mem
      | waits => exact ⟨Nat.le_refl _, h.map, h.dropped⟩
    | creates _ _ _ order =>
      have room := @Sessions.retireAll_retires s.sessions s.referred (s.sessions.crowdedOut order)
      refine ⟨Nat.le_succ _, fun j mem => ?_, fun j mem => ?_⟩
      · rcases Finset.mem_insert.mp mem with rfl | mem
        · exact Nat.le_refl _
        · exact Nat.le_succ_of_le (h.map j ((room.mem_map j).mp mem).1)
      · rcases room.gained j mem with mem | ⟨_, mem⟩
        · exact Nat.le_succ_of_le (h.dropped j mem)
        · exact Nat.le_succ_of_le (h.map j mem)
    | failsResumed | detaches => simpa using And.intro h.map h.dropped
    | failsFresh => exact ⟨Nat.le_refl _, fun j mem => h.map j (Finset.mem_of_mem_erase mem), h.dropped⟩
    | reaps _ _ _ ids =>
      have room := @Sessions.retireAll_retires s.sessions s.referred ids
      simp only [room.nextId]
      refine ⟨Nat.le_refl _, fun j mem => h.map j ((room.mem_map j).mp mem).1, fun j mem => ?_⟩
      rcases room.gained j mem with mem | ⟨_, mem⟩
      · exact h.dropped j mem
      · exact h.map j mem
    | _ => exact ⟨Nat.le_refl _, h.map, h.dropped⟩
  obtain ⟨grows, map, dropped⟩ := tables
  refine ⟨map, dropped, fun c mem => ?_, fun id e entry => ?_⟩
  · obtain ⟨k, found⟩ := mem_iff_getElem?.mp mem
    obtain ⟨new, origin⟩ := conns_origin moved
    rcases origin k c found with ⟨d, here, stays⟩ | ⟨_, comes⟩
    · rw [stays.session]
      exact (h.conns d (mem_of_getElem? here)).trans grows
    · cases comes with
      | waits => exact Nat.zero_le _
      | resumes id _ _ there => exact map id there
      | creates _ _ _ _ there => exact map _ there
  · rcases registry_origin moved entry with old | ⟨c, mem, rfl, _⟩
    · exact (h.registry id e old).trans grows
    · exact (h.conns c mem).trans grows

/-- A session is in the table or among the dropped ones, never both. -/
def Apart (s : Server) : Prop :=
  ∀ id ∈ s.sessions.map, id ∉ s.sessions.dropped

theorem Apart.step (known : Known s) (h : Apart s) (moved : Steps s action t) : Apart t := by
  cases moved with
  | greets _ greets =>
    cases greets with
    | resumes _ _ _ _ done =>
      obtain ⟨_, _, _, map, _, dropped, _⟩ := Sessions.resume_eq_some done
      intro j mem gone
      obtain ⟨already, kept⟩ := dropped j gone
      simp only [map] at mem
      rcases Finset.mem_insert.mp mem with rfl | mem
      · exact h j (kept rfl) already
      · exact h j mem already
    | waits => exact h
  | creates _ _ _ order =>
    have room := @Sessions.retireAll_retires s.sessions s.referred (s.sessions.crowdedOut order)
    intro j mem gone
    rcases Finset.mem_insert.mp mem with rfl | mem
    · rcases room.gained _ gone with gone | ⟨_, gone⟩
      · have := known.dropped _ gone
        omega
      · have := known.map _ gone
        omega
    · obtain ⟨mem, unlisted⟩ := (room.mem_map j).mp mem
      rcases room.gained j gone with gone | ⟨listed, _⟩
      · exact h j mem gone
      · exact unlisted listed
  | failsFresh => exact fun j mem => h j (Finset.mem_of_mem_erase mem)
  | failsResumed | detaches => simpa [Apart] using h
  | reaps _ _ _ ids =>
    have room := @Sessions.retireAll_retires s.sessions s.referred ids
    intro j mem gone
    obtain ⟨mem, unlisted⟩ := (room.mem_map j).mp mem
    rcases room.gained j gone with gone | ⟨listed, _⟩
    · exact h j mem gone
    · exact unlisted listed
  | _ => exact h

/-- No id is given twice: two tasks that created a session have different ones. -/
def GivenOnce (s : Server) : Prop :=
  ∀ (i j : ℕ) (c d : ConnTask), s.conns[i]? = some c → s.conns[j]? = some d → c.fresh → d.fresh →
    c.session = d.session → i = j

theorem GivenOnce.step (known : Known s) (h : GivenOnce s) (moved : Steps s action t) :
    GivenOnce t := by
  obtain ⟨new, origin⟩ := conns_origin moved
  intro i j c d hc hd freshC freshD session
  rcases origin i c hc with ⟨c', hc', staysC⟩ | ⟨rfl, comesC⟩ <;>
    rcases origin j d hd with ⟨d', hd', staysD⟩ | ⟨rfl, comesD⟩
  · exact h i j c' d' hc' hd' (staysC.fresh freshC) (staysD.fresh freshD)
      (staysC.session.symm.trans (session.trans staysD.session))
  · have := comesD.above freshD
    have := known.conns c' (mem_of_getElem? hc')
    have := staysC.session
    omega
  · have := comesC.above freshC
    have := known.conns d' (mem_of_getElem? hd')
    have := staysD.session
    omega
  · rfl

/-- No connection, registered entry or request is of an epoch its session has not reached. -/
structure Dated (s : Server) : Prop where
  conns : ∀ c ∈ s.conns, c.epoch ≤ s.sessions.epoch c.session
  registry : ∀ id e, s.connections id = some e → e ≤ s.sessions.epoch id
  requests : ∀ id, ∀ task ∈ (s.sessions.states id).requests, task.epoch ≤ s.sessions.epoch id

variable {st st' : SessionState}

theorem request_attachment (moved : RequestSteps st st') :
    st'.attachment.epoch = st.attachment.epoch ∧
      st'.attachment.detachedAt = st.attachment.detachedAt := by
  cases moved with
  | undecodes | decodes => exact ⟨rfl, rfl⟩
  | moves _ _ _ _ _ _ move => cases move <;> exact ⟨rfl, rfl⟩

theorem request_dated (moved : RequestSteps st st') :
    st'.attachment.epoch = st.attachment.epoch ∧
      ∀ task' ∈ st'.requests, ∃ task ∈ st.requests, task'.epoch = task.epoch := by
  cases moved with
  | undecodes _ _ found | decodes _ _ _ found =>
    refine ⟨rfl, fun task' mem => ?_⟩
    rcases mem_or_eq_of_mem_set mem with mem | rfl
    · exact ⟨task', mem, rfl⟩
    · exact ⟨_, mem_of_getElem? found, rfl⟩
  | moves i epoch x a' x' found move =>
    refine ⟨(request_attachment (.moves i epoch x a' x' found move)).1, fun task' mem => ?_⟩
    rcases mem_or_eq_of_mem_set mem with mem | rfl
    · exact ⟨task', mem, rfl⟩
    · exact ⟨_, mem_of_getElem? found, rfl⟩

variable {id : ℕ}

theorem epoch_grows (moved : Steps s action t) (given : id ≤ s.sessions.nextId) :
    s.sessions.epoch id ≤ t.sessions.epoch id := by
  unfold Sessions.epoch
  cases session_effect moved id with
  | keeps _ _ same | accepts _ _ _ _ same => rw [same]
  | resumes _ _ same =>
    rw [same]
    exact Nat.le_succ _
  | moves _ _ moved => rw [(request_dated moved).1]
  | creates => omega

theorem Dated.step (known : Known s) (h : Dated s) (moved : Steps s action t) : Dated t := by
  have old : ∀ c ∈ s.conns, c.epoch ≤ t.sessions.epoch c.session := fun c mem =>
    (h.conns c mem).trans (epoch_grows moved (known.conns c mem))
  refine ⟨fun c mem => ?_, fun id e entry => ?_, fun id task mem => ?_⟩
  · obtain ⟨k, found⟩ := mem_iff_getElem?.mp mem
    obtain ⟨new, origin⟩ := conns_origin moved
    rcases origin k c found with ⟨d, here, stays⟩ | ⟨_, comes⟩
    · rw [stays.session, stays.epoch]
      exact old d (mem_of_getElem? here)
    · cases comes with
      | waits => exact Nat.zero_le _
      | resumes => exact Nat.le_refl _
      | creates _ _ _ _ _ epoch => exact Nat.le_of_eq epoch.symm
  · rcases registry_origin moved entry with before | ⟨c, mem, rfl, rfl⟩
    · exact (h.registry id e before).trans (epoch_grows moved (known.registry id e before))
    · exact old c mem
  · have before := h.requests id
    simp only [Sessions.epoch] at before ⊢
    cases session_effect moved id with
    | keeps _ _ same =>
      rw [same] at mem ⊢
      exact before task mem
    | resumes _ _ same =>
      rw [same] at mem ⊢
      exact Nat.le_succ_of_le (before task mem)
    | accepts c listed session _ same =>
      rw [same] at mem ⊢
      rcases mem_append.mp mem with mem | mem
      · exact before task mem
      · rw [mem_singleton.mp mem]
        exact session ▸ h.conns c listed
    | moves _ _ moved =>
      obtain ⟨epoch, dated⟩ := request_dated moved
      obtain ⟨task', mem', same⟩ := dated task mem
      rw [same, epoch]
      exact before task' mem'
    | creates _ _ same => simp [same, SessionState.new] at mem

/-- A task that comes with a session has a later epoch of it than all that were there. -/
theorem Dated.newer (known : Known s) (h : Dated s) {i j : ℕ} {c c' d : ConnTask}
    (found : s.conns[i]? = some c) (stays : Stays c c') (comes : Comes s t j d)
    (named : d.stage ≠ .creating) (session : c'.session = d.session) : c'.epoch < d.epoch := by
  have mem := mem_of_getElem? found
  rw [stays.session] at session
  cases comes with
  | waits => exact absurd rfl named
  | resumes _ _ _ _ epoch =>
    have old := h.conns c mem
    rw [session] at old
    rw [stays.epoch, epoch]
    exact Nat.lt_succ_of_le old
  | creates =>
    have := known.conns c mem
    simp only at session
    omega

/-- Connection `k` is at the session's epoch, and its end will detach or forget the session. -/
def Owner (s : Server) (id k : ℕ) (c : ConnTask) : Prop :=
  s.conns[k]? = some c ∧ c.stage.owns = true ∧ c.session = id ∧ c.epoch = s.sessions.epoch id

/-- Every session of the table whose grace period does not run has an owner. -/
def Owned (s : Server) : Prop :=
  ∀ id ∈ s.sessions.map, s.sessions.detachedAt id = none → ∃ k c, Owner s id k c

variable {stage : ConnStage} {ss : Sessions} {c : ConnTask} {registry : ℕ → Option ℕ} {k : ℕ}

/-- The stage of connection `k` changes.  It keeps owning its session, or whatever it owned is
detached or out of the table. -/
theorem Owned.restage (h : Owned s) (found : s.conns[k]? = some c)
    (back : ∀ j ∈ ss.map, ss.detachedAt j = none → j ∈ s.sessions.map ∧ s.sessions.detachedAt j = none ∧ ss.epoch j = s.sessions.epoch j)
    (keeps : stage.owns = true ∨ ∀ j ∈ ss.map, ss.detachedAt j = none → ¬ Owner s j k c) :
    Owned ⟨ss, registry, s.conns.set k { c with stage := stage }⟩ := by
  intro j mem attached
  obtain ⟨mem', attached', epoch⟩ := back j mem attached
  obtain ⟨k', c', owner⟩ := h j mem' attached'
  by_cases same : k' = k
  · subst same
    obtain rfl : c' = c := Option.some.inj (owner.1.symm.trans found)
    rcases keeps with keeps | gone
    · exact ⟨k', _, lookup_write found, keeps, owner.2.2.1, owner.2.2.2.trans epoch.symm⟩
    · exact absurd owner (gone j mem attached)
  · refine ⟨k', c', ?_, owner.2.1, owner.2.2.1, owner.2.2.2.trans epoch.symm⟩
    rw [lookup_write_of_ne same]
    exact owner.1

theorem Owned.detach (h : Owned s) {now : ℕ} (found : s.conns[k]? = some c) :
    Owned { s.setStage k c stage with sessions := s.sessions.detach c.session c.epoch now } := by
  refine h.restage found (fun j mem attached => ?_) (.inr fun j mem attached owner => ?_)
  · rw [Sessions.detach_detachedAt] at attached
    split_ifs at attached
    rw [Sessions.detach_map] at mem
    exact ⟨mem, attached, by rw [Sessions.epoch, Sessions.epoch, Sessions.detach_states]⟩
  · obtain ⟨_, _, rfl, epoch⟩ := owner
    rw [Sessions.detach_map] at mem
    rw [Sessions.detach_detachedAt, if_pos ⟨rfl, mem, epoch.symm⟩] at attached
    cases attached

/-- A write to one session's state that does not touch its epoch or its grace period. -/
theorem Sessions.update_attached {st : SessionState} (epoch : st.attachment.epoch = ss.epoch id)
    (since : st.attachment.detachedAt = ss.detachedAt id) (j : ℕ) :
    { ss with states := Function.update ss.states id st }.epoch j = ss.epoch j ∧
      { ss with states := Function.update ss.states id st }.detachedAt j = ss.detachedAt j := by
  by_cases same : j = id
  · subst same
    simpa [Sessions.epoch, Sessions.detachedAt] using And.intro epoch since
  · simp [Sessions.epoch, Sessions.detachedAt, same]

theorem Owned.same_sessions (h : Owned s) (map : ∀ j ∈ ss.map, j ∈ s.sessions.map)
    (same : ∀ j, ss.epoch j = s.sessions.epoch j ∧ ss.detachedAt j = s.sessions.detachedAt j) :
    Owned { s with sessions := ss } := by
  intro j mem attached
  rw [(same j).2] at attached
  obtain ⟨k, c, owner⟩ := h j (map j mem) attached
  exact ⟨k, c, owner.1, owner.2.1, owner.2.2.1, owner.2.2.2.trans (same j).1.symm⟩

theorem Owned.step (dated : Dated s) (h : Owned s) (moved : Steps s action t) : Owned t := by
  cases moved with
  | greets _ greets =>
    cases greets with
    | resumes id _ _ resumed done =>
      obtain ⟨_, _, states, map, _⟩ := Sessions.resume_eq_some done
      intro j mem attached
      by_cases same : j = id
      · subst same
        exact ⟨s.conns.length, _, getElem?_concat_length, rfl, rfl, rfl⟩
      · have old : resumed.states j = s.sessions.states j := by
          rw [states, Function.update_of_ne same]
        simp only [map, Finset.mem_insert, same, false_or] at mem
        simp only [Sessions.detachedAt, old] at attached
        obtain ⟨k, c, owner⟩ := h j mem attached
        refine ⟨k, c, lookup_add owner.1, owner.2.1, owner.2.2.1, ?_⟩
        simpa only [Sessions.epoch, old] using owner.2.2.2
    | waits =>
      intro j mem attached
      obtain ⟨k, c, owner⟩ := h j mem attached
      exact ⟨k, c, lookup_add owner.1, owner.2⟩
  | creates k _ _ order found waiting =>
    have room := @Sessions.retireAll_retires s.sessions s.referred (s.sessions.crowdedOut order)
    intro j mem attached
    by_cases same : j = s.sessions.nextId + 1
    · subst same
      refine ⟨k, _, lookup_write found, rfl, rfl, ?_⟩
      simp [Sessions.epoch, Sessions.create, SessionState.new]
    · simp only [Sessions.create, Finset.mem_insert, same, false_or] at mem
      simp only [Sessions.detachedAt, Sessions.create, Function.update_of_ne same,
        room.states] at attached
      obtain ⟨k', c', owner⟩ := h j ((room.mem_map j).mp mem).1 attached
      have ne : k' ≠ k := by
        rintro rfl
        obtain rfl := Option.some.inj (owner.1.symm.trans found)
        have := owner.2.1
        simp [ConnStage.owns, waiting] at this
      refine ⟨k', c', ?_, owner.2.1, owner.2.2.1, ?_⟩
      · rw [lookup_write_of_ne ne]
        exact owner.1
      · simpa only [Sessions.epoch, Sessions.create, Function.update_of_ne same,
          room.states] using owner.2.2.2
  | failsResumed _ _ _ found => exact h.detach found
  | failsFresh _ _ _ found =>
    refine h.restage found (fun j mem attached => ?_) (.inr fun j mem attached owner => ?_)
    · exact ⟨Finset.mem_of_mem_erase mem, attached, rfl⟩
    · exact Finset.ne_of_mem_erase mem owner.2.2.1.symm
  | acks _ _ found => exact h.restage found (fun j mem at' => ⟨mem, at', rfl⟩) (.inl rfl)
  | turnedAway _ _ _ found _ registered =>
    refine h.restage found (fun j mem at' => ⟨mem, at', rfl⟩) (.inr fun j _ _ owner => ?_)
    have := dated.registry _ _ registered
    obtain ⟨_, _, rfl, epoch⟩ := owner
    omega
  | registers _ _ found => exact h.restage found (fun j mem at' => ⟨mem, at', rfl⟩) (.inl rfl)
  | attaches _ c found =>
    have same := @Sessions.update_attached c.session s.sessions
      { s.sessions.states c.session with
        holders := (s.sessions.states c.session).holders + 1 } rfl rfl
    exact h.restage found (fun j mem at' => ⟨mem, (same j).2 ▸ at', (same j).1⟩) (.inl rfl)
  | unregisters _ _ found =>
    exact h.restage found (fun j mem at' => ⟨mem, at', rfl⟩) (.inl rfl)
  | detaches _ _ _ found => exact h.detach found
  | letsGo _ c found detached =>
    have same := @Sessions.update_attached c.session s.sessions
      { s.sessions.states c.session with
        holders := (s.sessions.states c.session).holders - 1 } rfl rfl
    refine h.restage found (fun j mem at' => ⟨mem, (same j).2 ▸ at', (same j).1⟩)
      (.inr fun j _ _ owner => ?_)
    have := owner.2.1
    simp [ConnStage.owns, detached] at this
  | accepts =>
    exact h.same_sessions (fun j mem => mem) (Sessions.update_attached rfl rfl)
  | requests _ _ _ moved =>
    obtain ⟨epoch, since⟩ := request_attachment moved
    exact h.same_sessions (fun j mem => mem) (Sessions.update_attached epoch since)
  | reaps _ _ _ ids =>
    have room := @Sessions.retireAll_retires s.sessions s.referred ids
    refine h.same_sessions (fun j mem => ((room.mem_map j).mp mem).1) fun j => ?_
    simp only [Sessions.epoch, Sessions.detachedAt, room.states, and_self]

/-- `holders` counts the requests under way and the attached connections of the session. -/
def Held (s : Server) : Prop :=
  ∀ id, (s.sessions.states id).holders =
    (s.sessions.states id).requests.countP RequestTask.holds +
      s.conns.countP fun c => c.session == id && c.stage.holds

theorem move_holder {a a' : Attachment} {epoch : ℕ} {x x' : Exchange}
    (move : Moves a epoch x a' x') : x'.holder = x.holder ∨ x'.holder = false := by
  cases move with
  | endsUnbegun | finishesUnordered | finishesCurrent | finishesAbandoned | finishesOlder =>
    exact .inr rfl
  | _ => exact .inl rfl

/-- A request's step drops a hold exactly when the request stops holding the session. -/
theorem request_holders (moved : RequestSteps st st')
    (enough : st.requests.countP RequestTask.holds ≤ st.holders) :
    st'.holders + st.requests.countP RequestTask.holds =
      st.holders + st'.requests.countP RequestTask.holds := by
  cases moved with
  | undecodes _ epoch found =>
    have count := countP_write RequestTask.holds ⟨epoch, .undecoded⟩ found
    simp only [RequestTask.holds, if_true, Bool.false_eq_true, if_false] at count
    simp only
    omega
  | decodes _ epoch ordered found =>
    have count := countP_write RequestTask.holds
      ⟨epoch, .exchange (fencing st.attachment epoch (.new ordered)).1⟩ found
    simp only [RequestTask.holds, fencing_new, if_true] at count
    simp only [fencing_new]
    omega
  | moves _ epoch x _ x' found move =>
    have count := countP_write RequestTask.holds ⟨epoch, .exchange x'⟩ found
    have drops := move_holder move
    cases held : x.holder <;> cases held' : x'.holder <;>
      simp [SessionState.write, held, held'] at drops count ⊢ <;> omega

theorem request_holds (moved : RequestSteps st st')
    (held : st'.requests.any RequestTask.holds = true) :
    st.requests.any RequestTask.holds = true := by
  obtain ⟨task, mem, holds⟩ := any_eq_true.mp held
  refine any_eq_true.mpr ?_
  cases moved with
  | undecodes =>
    rcases mem_or_eq_of_mem_set mem with mem | rfl
    · exact ⟨task, mem, holds⟩
    · cases holds
  | decodes _ _ _ found =>
    rcases mem_or_eq_of_mem_set mem with mem | rfl
    · exact ⟨task, mem, holds⟩
    · exact ⟨_, mem_of_getElem? found, rfl⟩
  | moves _ _ _ _ _ found move =>
    rcases mem_or_eq_of_mem_set mem with mem | rfl
    · exact ⟨task, mem, holds⟩
    · refine ⟨_, mem_of_getElem? found, ?_⟩
      simp only [RequestTask.holds] at holds ⊢
      rcases move_holder move with same | dropped
      · rw [← same, holds]
      · simp [dropped] at holds

theorem count_restage {conns : List ConnTask} (found : conns[k]? = some c) (stage : ConnStage)
    (j : ℕ) :
    ((conns.set k { c with stage := stage }).countP fun d => d.session == j && d.stage.holds) +
        (if c.session = j ∧ c.stage.holds then 1 else 0) =
      (conns.countP fun d => d.session == j && d.stage.holds) +
        (if c.session = j ∧ stage.holds then 1 else 0) := by
  have count := countP_write (fun d : ConnTask => d.session == j && d.stage.holds)
    { c with stage := stage } found
  simpa only [Bool.and_eq_true, beq_iff_eq] using count

/-- The connections that hold each session are as many as before, and so is all of the sessions that
the count concerns. -/
theorem Held.same (h : Held s) {conns : List ConnTask}
    (states : ∀ j, (ss.states j).holders = (s.sessions.states j).holders ∧ (ss.states j).requests = (s.sessions.states j).requests)
    (count : ∀ j, (conns.countP fun c => c.session == j && c.stage.holds) = s.conns.countP fun c => c.session == j && c.stage.holds) :
    Held ⟨ss, registry, conns⟩ := by
  intro j
  simp only [(states j).1, (states j).2, count j]
  exact h j

theorem Held.restage (h : Held s) (found : s.conns[k]? = some c)
    (keeps : stage.holds = c.stage.holds)
    (states : ∀ j, (ss.states j).holders = (s.sessions.states j).holders ∧ (ss.states j).requests = (s.sessions.states j).requests) :
    Held ⟨ss, registry, s.conns.set k { c with stage := stage }⟩ := by
  refine h.same states fun j => ?_
  have count := count_restage found stage j
  rw [keeps] at count
  omega

theorem Held.step (known : Known s) (h : Held s) (moved : Steps s action t) : Held t := by
  have detached : ∀ id epoch now j,
      ((s.sessions.detach id epoch now).states j).holders = (s.sessions.states j).holders ∧
      ((s.sessions.detach id epoch now).states j).requests = (s.sessions.states j).requests := by
    intro id epoch now j
    rw [Sessions.detach_states]
    exact ⟨rfl, rfl⟩
  cases moved with
  | greets _ greets =>
    cases greets with
    | resumes _ _ _ _ done =>
      obtain ⟨_, _, states, _⟩ := Sessions.resume_eq_some done
      refine h.same (fun j => ?_) fun j => by simp [ConnStage.holds]
      simp only [states, Function.update_apply]
      split_ifs with same
      · rw [same]
        exact ⟨rfl, rfl⟩
      · exact ⟨rfl, rfl⟩
    | waits => exact h.same (fun j => ⟨rfl, rfl⟩) fun j => by simp [ConnStage.holds]
  | creates _ c _ order found waiting =>
    have room := @Sessions.retireAll_retires s.sessions s.referred (s.sessions.crowdedOut order)
    intro j
    have count := countP_write (fun d : ConnTask => d.session == j && d.stage.holds)
      { c with session := s.sessions.nextId + 1, epoch := 1, stage := .handshake } found
    simp only [ConnStage.holds, waiting] at count
    by_cases same : j = s.sessions.nextId + 1
    · subst same
      have none_holds : (s.conns.countP fun d =>
          d.session == s.sessions.nextId + 1 && d.stage.holds) = 0 := by
        refine countP_eq_zero.mpr fun d mem counted => ?_
        have := known.conns d mem
        simp only [Bool.and_eq_true, beq_iff_eq] at counted
        omega
      simp only [Sessions.create, Function.update_self, SessionState.new, countP_nil]
      simp only [ConnStage.holds] at none_holds ⊢
      simp at count
      omega
    · simp only [Sessions.create, Function.update_of_ne same, room.states]
      have := h j
      simp only [ConnStage.holds] at this ⊢
      simp at count
      omega
  | failsResumed _ _ _ found stage =>
    exact h.restage found (by simp [ConnStage.holds, stage]) (detached _ _ _)
  | failsFresh _ _ _ found stage =>
    exact h.restage found (by simp [ConnStage.holds, stage]) fun j => ⟨rfl, rfl⟩
  | acks _ _ found stage =>
    exact h.restage found (by simp [ConnStage.holds, stage]) fun j => ⟨rfl, rfl⟩
  | turnedAway _ _ _ found stage =>
    exact h.restage found (by simp [ConnStage.holds, stage]) fun j => ⟨rfl, rfl⟩
  | registers _ _ found stage =>
    exact h.restage found (by simp [ConnStage.holds, stage]) fun j => ⟨rfl, rfl⟩
  | attaches _ _ found stage =>
    intro j
    have count := count_restage found .attached j
    have := h j
    simp only [Server.setStage, Sessions.update_states]
    split_ifs with same
    · subst same
      simp [ConnStage.holds, stage] at count this ⊢
      omega
    · simp [ConnStage.holds, stage, Ne.symm same] at count this ⊢
      omega
  | unregisters _ _ found stage =>
    exact h.restage found (by simp [ConnStage.holds, stage]) fun j => ⟨rfl, rfl⟩
  | detaches _ _ _ found stage =>
    exact h.restage found (by simp [ConnStage.holds, stage]) (detached _ _ _)
  | letsGo _ _ found stage =>
    intro j
    have count := count_restage found .ended j
    have := h j
    simp only [Server.setStage, Sessions.update_states]
    split_ifs with same
    · subst same
      simp [ConnStage.holds, stage] at count this ⊢
      omega
    · simp [ConnStage.holds, stage, Ne.symm same] at count this ⊢
      omega
  | accepts =>
    intro j
    have := h j
    simp only [Sessions.update_states]
    split_ifs with same
    · subst same
      simp only [countP_append, countP_singleton, RequestTask.holds, if_true]
      omega
    · exact this
  | requests id _ _ moved =>
    intro j
    have here := h id
    have holders := request_holders moved (by omega)
    simp only [Function.update_apply]
    split_ifs with same
    · subst same
      omega
    · exact h j
  | reaps _ _ _ ids =>
    have room := @Sessions.retireAll_retires s.sessions s.referred ids
    exact h.same (fun j => by simp only [room.states, and_self]) fun j => rfl

/-- The session was created by a handshake that failed before its Ack: no client knows it. -/
def Forgotten (s : Server) (id : ℕ) : Prop :=
  ∃ c ∈ s.conns, c.session = id ∧ c.resumed = false ∧ c.stage = .failed

/-- Whatever something refers to is in the table or among the dropped sessions, unless forgotten. -/
def Kept (s : Server) : Prop :=
  ∀ id, s.referred id = true → id ∈ s.sessions.map ∨ id ∈ s.sessions.dropped ∨ Forgotten s id

theorem referred_iff :
    s.referred id = true ↔ (∃ c ∈ s.conns, c.session = id ∧ c.stage.refers = true) ∨
      (s.sessions.states id).requests.any RequestTask.holds = true := by
  simp [Server.referred]

theorem forgotten_step (moved : Steps s action t) (h : Forgotten s id) : Forgotten t id := by
  obtain ⟨c, mem, session, resumed, failed⟩ := h
  obtain ⟨k, found⟩ := mem_iff_getElem?.mp mem
  obtain ⟨c', found', stays | ⟨waiting, _⟩⟩ := conns_stay moved found
  · refine ⟨c', mem_of_getElem? found', stays.session.trans session, stays.resumed.trans resumed, ?_⟩
    have stage := stays.stage
    rw [failed] at stage
    rcases stage with same | moves
    · exact same
    · cases moves
  · rw [failed] at waiting
    cases waiting

theorem referred_before (moved : Steps s action t) (h : t.referred id = true) :
    s.referred id = true ∨ id ∈ t.sessions.map := by
  rw [referred_iff] at h ⊢
  rcases h with ⟨c, mem, rfl, refers⟩ | held
  · obtain ⟨k, found⟩ := mem_iff_getElem?.mp mem
    obtain ⟨new, origin⟩ := conns_origin moved
    rcases origin k c found with ⟨d, here, stays⟩ | ⟨_, comes⟩
    · refine .inl (.inl ⟨d, mem_of_getElem? here, stays.session.symm, ?_⟩)
      rcases stays.stage with same | moves
      · rw [← same, refers]
      · generalize d.stage = was, c.stage = stage at moves
        cases moves <;> rfl
    · cases comes with
      | waits => cases refers
      | resumes _ _ _ there | creates _ _ _ _ there => exact .inr there
  · refine .inl ?_
    cases session_effect moved id with
    | keeps _ _ same | resumes _ _ same =>
      rw [same] at held
      exact .inr held
    | accepts c mem session attached =>
      exact .inl ⟨c, mem, session, by simp [attached, ConnStage.refers]⟩
    | moves _ _ moved => exact .inr (request_holds moved held)
    | creates _ _ same => simp [same, SessionState.new] at held

theorem Kept.retired {ids : List ℕ} {j : ℕ}
    (room : Sessions.Retires (fun d => s.referred d || ids.contains d) s.sessions ids ss)
    (before : s.referred j = true) (known : j ∈ s.sessions.map ∨ j ∈ s.sessions.dropped) :
    j ∈ ss.map ∨ j ∈ ss.dropped := by
  rcases known with mem | mem
  · by_cases listed : j ∈ ids
    · exact .inr (room.kept j (.inr ⟨listed, mem⟩) (by simp [listed]))
    · exact .inl ((room.mem_map j).mpr ⟨mem, listed⟩)
  · exact .inr (room.kept j (.inl mem) (by simp [before]))

theorem Kept.step (h : Kept s) (moved : Steps s action t) : Kept t := by
  intro j refers
  rcases referred_before moved refers with before | mem
  swap
  · exact .inl mem
  rw [← or_assoc]
  rcases or_assoc.mpr (h j before) with known | gone
  swap
  · exact .inr (forgotten_step moved gone)
  cases moved with
  | greets _ greets =>
    refine .inl ?_
    cases greets with
    | resumes id _ _ _ done =>
      obtain ⟨_, _, _, map, _, _, dropped⟩ := Sessions.resume_eq_some done
      by_cases same : j = id
      · exact .inl (by simp [map, same])
      · exact known.imp (fun mem => by simp [map, mem]) fun mem => dropped j mem same
    | waits => exact known
  | creates =>
    exact .inl ((Kept.retired Sessions.retireAll_retires before known).imp_left
      Finset.mem_insert_of_mem)
  | failsFresh _ c _ found _ fresh =>
    by_cases same : j = c.session
    · refine .inr ⟨_, mem_of_getElem? (lookup_write found), same.symm, fresh, rfl⟩
    · exact .inl (known.imp_left fun mem => Finset.mem_erase.mpr ⟨same, mem⟩)
  | failsResumed | detaches =>
    rw [Sessions.detach_map, Sessions.detach_dropped]
    exact .inl known
  | reaps => exact .inl (Kept.retired Sessions.retireAll_retires before known)
  | _ => exact .inl known

def CountedAll (s : Server) : Prop :=
  ∀ id, Counted (s.sessions.states id).attachment (s.sessions.states id).requests

theorem CountedAll.step (h : CountedAll s) (moved : Steps s action t) : CountedAll t := by
  intro id
  cases session_effect moved id with
  | keeps _ since same =>
    rw [same]
    exact (h id).detachedAt since
  | resumes _ _ same =>
    rw [same]
    exact (h id).resumed
  | accepts _ _ _ _ same =>
    rw [same]
    exact (h id).add_idle _ rfl rfl
  | moves _ _ moved => exact (h id).request moved
  | creates _ _ same =>
    rw [same]
    exact ⟨rfl, rfl, rfl, by simp [SessionState.new]⟩

/-- All the invariants of the server's session table. -/
structure Sound (s : Server) : Prop where
  known : Known s
  apart : Apart s
  givenOnce : GivenOnce s
  dated : Dated s
  owned : Owned s
  held : Held s
  kept : Kept s
  counted : CountedAll s

theorem Sound.new : Sound Server.new where
  known := ⟨by simp [Server.new, Sessions.new], by simp [Server.new, Sessions.new],
    by simp [Server.new], by simp [Server.new]⟩
  apart := by simp [Apart, Server.new, Sessions.new]
  givenOnce := by simp [GivenOnce, Server.new]
  dated := ⟨by simp [Server.new], by simp [Server.new],
    by simp [Server.new, Sessions.new, SessionState.new]⟩
  owned := by simp [Owned, Server.new, Sessions.new]
  held := by simp [Held, Server.new, Sessions.new, SessionState.new]
  kept := by simp [Kept, Server.referred, Server.new, Sessions.new, SessionState.new]
  counted := fun _ => ⟨rfl, rfl, rfl, by simp [Server.new, Sessions.new, SessionState.new]⟩

theorem Sound.step (h : Sound s) (moved : Steps s action t) : Sound t where
  known := h.known.step moved
  apart := h.apart.step h.known moved
  givenOnce := h.givenOnce.step h.known moved
  dated := h.dated.step h.known moved
  owned := h.owned.step h.dated moved
  held := h.held.step h.known moved
  kept := h.kept.step moved
  counted := h.counted.step moved

theorem sound_of_reachable (h : machine.Reachable s) : Sound s :=
  Machine.Reachable.invariant Sound.new (fun _ _ _ hs moves => hs.step (step_steps moves)) h

/-- What is left for the task of connection `k` to do until it has detached its session, if it meets
no obstacle but fails when it is not acknowledged yet. -/
def ending (k now : ℕ) : ConnStage → List SessionTable.Action
  | .handshake => [.fail k now]
  | .acked => [.register k, .attach k, .unregister k, .detach k now]
  | .registered => [.attach k, .unregister k, .detach k now]
  | .attached => [.unregister k, .detach k now]
  | .unregistered => [.detach k now]
  | .creating | .failed | .detached | .ended => []

/-- The session's grace period runs, or it is out of the table. -/
def Released (s : Server) (id now : ℕ) : Prop :=
  id ∉ s.sessions.map ∨ s.sessions.detachedAt id = some now

theorem Owner.restaged {id k : ℕ} (h : Owner s id k c) (owns : stage.owns = true)
    (conns : t.conns = s.conns.set k { c with stage := stage })
    (epoch : t.sessions.epoch id = s.sessions.epoch id) :
    Owner t id k { c with stage := stage } := by
  refine ⟨?_, owns, h.2.2.1, h.2.2.2.trans epoch.symm⟩
  rw [conns]
  exact lookup_write h.1

theorem onConn_eq {f : ConnTask → Server} (found : s.conns[k]? = some c) (here : c.stage = stage) :
    s.onConn k stage f = some (f c) := by
  simp [Server.onConn, found, here]

theorem runFrom_cons {action : SessionTable.Action} {rest : List SessionTable.Action}
    {m : Server} {P : Server → Prop} (first : SessionTable.step s action = some m)
    (later : ∃ t, machine.runFrom m rest = some t ∧ P t) :
    ∃ t, machine.runFrom s (action :: rest) = some t ∧ P t := by
  obtain ⟨t, run, done⟩ := later
  exact ⟨t, (Machine.runFrom_cons first).trans run, done⟩

section Ending

variable {id k now : ℕ} {c : ConnTask}

theorem Owner.detaches (h : Owner s id k c) (mem : id ∈ s.sessions.map) (conns : List ConnTask) :
    Released { s with sessions := s.sessions.detach c.session c.epoch now, conns := conns } id
      now := by
  obtain ⟨_, _, rfl, epoch⟩ := h
  refine .inr ?_
  rw [Sessions.detach_detachedAt, if_pos ⟨rfl, mem, epoch.symm⟩]

theorem Owner.ends_unregistered (h : Owner s id k c) (mem : id ∈ s.sessions.map)
    (stage : c.stage = .unregistered) :
    ∃ t, machine.runFrom s [.detach k now] = some t ∧ Released t id now :=
  runFrom_cons (onConn_eq h.1 stage) ⟨_, rfl, h.detaches mem _⟩

theorem Owner.ends_attached (h : Owner s id k c) (mem : id ∈ s.sessions.map)
    (stage : c.stage = .attached) :
    ∃ t, machine.runFrom s [.unregister k, .detach k now] = some t ∧ Released t id now := by
  refine runFrom_cons (onConn_eq h.1 stage) ?_
  exact Owner.ends_unregistered (h.restaged rfl rfl rfl) mem rfl

theorem Owner.ends_registered (h : Owner s id k c) (mem : id ∈ s.sessions.map)
    (stage : c.stage = .registered) :
    ∃ t, machine.runFrom s [.attach k, .unregister k, .detach k now] = some t ∧
      Released t id now := by
  refine runFrom_cons (onConn_eq h.1 stage) ?_
  refine Owner.ends_attached (h.restaged rfl rfl ?_) mem rfl
  exact (@Sessions.update_attached c.session s.sessions
    { s.sessions.states c.session with
      holders := (s.sessions.states c.session).holders + 1 } rfl rfl id).1

/-- A connection at the session's current epoch is never turned away by the registry. -/
theorem Owner.ends_acked (dated : Dated s) (h : Owner s id k c) (mem : id ∈ s.sessions.map)
    (stage : c.stage = .acked) :
    ∃ t, machine.runFrom s [.register k, .attach k, .unregister k, .detach k now] = some t ∧
      Released t id now := by
  have newest : ((s.connections c.session).any fun entry => decide (c.epoch < entry)) = false := by
    cases entry : s.connections c.session with
    | none => rfl
    | some =>
      have := dated.registry _ _ entry
      have := h.2.2.2
      rw [← h.2.2.1] at this
      simp only [Option.any_some, decide_eq_false_iff_not]
      omega
  have first := onConn_eq (f := fun c =>
    if (s.connections c.session).any fun entry => decide (c.epoch < entry) then
      s.setStage k c .ended
    else
      { s.setStage k c .registered with
        connections := Function.update s.connections c.session (some c.epoch) }) h.1 stage
  simp only [newest, Bool.false_eq_true, if_false] at first
  refine runFrom_cons first ?_
  exact Owner.ends_registered (h.restaged rfl rfl rfl) mem rfl

theorem Owner.ends_handshake (h : Owner s id k c) (mem : id ∈ s.sessions.map)
    (stage : c.stage = .handshake) :
    ∃ t, machine.runFrom s [.fail k now] = some t ∧ Released t id now := by
  refine runFrom_cons (onConn_eq h.1 stage) ⟨_, rfl, ?_⟩
  cases resumed : c.resumed with
  | true =>
    exact h.detaches mem _
  | false =>
    refine .inl ?_
    simp [h.2.2.1]

/-- The task that owns a session detaches it, or takes it out of the table, by its own end. -/
theorem Owner.ends (dated : Dated s) (h : Owner s id k c) (mem : id ∈ s.sessions.map) :
    ∃ t, machine.runFrom s (ending k now c.stage) = some t ∧ Released t id now := by
  have owns := h.2.1
  cases stage : c.stage with
  | handshake => exact h.ends_handshake mem stage
  | acked => exact h.ends_acked dated mem stage
  | registered => exact h.ends_registered mem stage
  | attached => exact h.ends_attached mem stage
  | unregistered => exact h.ends_unregistered mem stage
  | creating | failed | detached | ended =>
    rw [stage] at owns
    cases owns

end Ending

/-- A session with a request under way that its client knows can be resumed with its token. -/
theorem Sound.resumes (h : Sound s) (remembered : ¬ Forgotten s id)
    (underWay : ∃ task ∈ (s.sessions.states id).requests, task.holds = true) :
    ∃ resumed, s.sessions.resume id (s.sessions.states id).resumeToken = some resumed ∧
      resumed.epoch id = s.sessions.epoch id + 1 := by
  obtain ⟨task, mem, holds⟩ := underWay
  have refers : s.referred id = true :=
    referred_iff.mpr (.inr (any_eq_true.mpr ⟨task, mem, holds⟩))
  have counted : 0 < (s.sessions.states id).requests.countP RequestTask.holds :=
    countP_pos_iff.mpr ⟨task, mem, holds⟩
  have holders : (s.sessions.states id).holders ≠ 0 := by
    have := h.held id
    omega
  have found : (s.sessions.resume id (s.sessions.states id).resumeToken).isSome := by
    unfold Sessions.resume
    by_cases inMap : id ∈ s.sessions.map
    · simp [inMap]
    · have inDropped : id ∈ s.sessions.dropped :=
        ((h.kept id refers).resolve_left inMap).resolve_right remembered
      simp [inMap, inDropped, holders]
  obtain ⟨resumed, done⟩ := Option.isSome_iff_exists.mp found
  obtain ⟨_, _, states, _⟩ := Sessions.resume_eq_some done
  exact ⟨resumed, done, by simp [Sessions.epoch, states, Attachment.resumed]⟩

/-- The session table is sound in every state of every run.  No two tasks create a session of one
id; no session is in the table and dropped; a session of the table whose grace period does not run
has an owner at its epoch, whose own end detaches it at that epoch or takes it out of the table; and
a session with a request under way, unless its creation was never acknowledged, is resumed by a
hello that names it with its token. -/
theorem session_table_sound (h : machine.Reachable s) :
    GivenOnce s ∧
      (∀ id ∈ s.sessions.map, id ∉ s.sessions.dropped) ∧
      (∀ id ∈ s.sessions.map, s.sessions.detachedAt id = none →
        ∃ k c, Owner s id k c ∧ ∀ now,
          ∃ t, machine.runFrom s (ending k now c.stage) = some t ∧ Released t id now) ∧
      (∀ id, ¬ Forgotten s id → (∃ task ∈ (s.sessions.states id).requests, task.holds = true) →
        (hello s (some (id, (s.sessions.states id).resumeToken))).conns =
          s.conns ++ [⟨id, s.sessions.epoch id + 1, true, .handshake⟩]) := by
  have sound := sound_of_reachable h
  refine ⟨sound.givenOnce, sound.apart, ?_, ?_⟩
  · intro id mem attached
    obtain ⟨k, c, owner⟩ := sound.owned id mem attached
    exact ⟨k, c, owner, fun now => owner.ends sound.dated mem⟩
  · intro id remembered underWay
    obtain ⟨resumed, done, epoch⟩ := sound.resumes remembered underWay
    simp [hello, done, epoch]

/-- A session is created and attached, a change begins on it, the connection ends and the reaper
drops the session while the change still runs. -/
def droppedRun : List SessionTable.Action :=
  [.hello none, .create 0 7 [], .ack 0, .register 0, .attach 0, .accept 0,
    .request 1 (.decode 0 true), .request 1 (.begin 0), .unregister 0, .detach 0 5, .letGo 0,
    .reap 100 10 [1]]

theorem session_table_sound_dropped :
    ∃ s, SessionTable.machine.run droppedRun = some s ∧ 1 ∈ s.sessions.dropped ∧
      (hello s (some (1, 7))).conns = s.conns ++ [⟨1, 2, true, .handshake⟩] := by
  refine ⟨_, rfl, by decide, ?_⟩
  have reached := Machine.reachable_of_run
    (rfl : SessionTable.machine.run droppedRun = some _)
  refine (session_table_sound reached).2.2.2 1 ?_ ?_
  · rintro ⟨c, mem, _, _, failed⟩
    obtain rfl := List.mem_singleton.mp mem
    cases failed
  · exact ⟨_, List.mem_singleton.mpr rfl, rfl⟩

end JackalopeFs.SessionOwnership
