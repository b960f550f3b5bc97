import JackalopeFs.SessionOwnership

/-! # Resuming a session

What one call of `resume` does in any state of any run: which hellos it accepts,
that it takes effect as a whole or not at all, and how it reclassifies the exchanges
of the connection it supersedes.  The epochs given before are those of the tasks
the server ever started for the session, which the machine never forgets.
-/

namespace JackalopeFs.SessionResume

open SessionExchange SessionTable SessionOwnership TransitionRuns

variable {s : Server} {id token : ℕ}

/-- Something of the session is under way: a request, or a connection attached to it. -/
def underWay (s : Server) (id : ℕ) : Prop :=
  (∃ task ∈ (s.sessions.states id).requests, task.holds = true) ∨
    ∃ c ∈ s.conns, c.session = id ∧ c.stage.holds = true

/-- The unfinished ordered exchanges of the session, on its current connection and on older ones. -/
def unfinished (ss : Sessions) (id : ℕ) : ℕ :=
  (ss.states id).attachment.running + (ss.states id).attachment.runningOlder

theorem holders_ne_zero_iff (held : Held s) :
    (s.sessions.states id).holders ≠ 0 ↔ underWay s id := by
  rw [held id, ← Nat.pos_iff_ne_zero, Nat.add_pos_iff_pos_or_pos, List.countP_pos_iff,
    List.countP_pos_iff]
  simp only [underWay, Bool.and_eq_true, beq_iff_eq]

theorem resume_isSome_iff (ss : Sessions) :
    (ss.resume id token).isSome = true ↔
      (id ∈ ss.map ∨ (id ∈ ss.dropped ∧ (ss.states id).holders ≠ 0)) ∧
        (ss.states id).resumeToken = token := by
  unfold Sessions.resume
  split_ifs with inMap matching inDropped matching
  · simp [inMap, matching]
  · simp [matching]
  · simp [inDropped.1, inDropped.2, matching]
  · simp [matching]
  · simp [inMap, inDropped]

theorem sessions_of_refused (refused : s.sessions.resume id token = none) :
    (hello s (some (id, token))).sessions = s.sessions := by
  simp [hello, refused]

section Resumed

variable {after : Sessions} (done : s.sessions.resume id token = some after)

include done

theorem attachment_of_resume :
    (after.states id).attachment = (s.sessions.states id).attachment.resumed := by
  obtain ⟨_, _, states, _⟩ := Sessions.resume_eq_some done
  rw [states, Function.update_self]

theorem mem_of_resume (apart : Apart s) : id ∈ after.map ∧ id ∉ after.dropped := by
  obtain ⟨_, _, _, map, _, dropped, _⟩ := Sessions.resume_eq_some done
  refine ⟨?_, fun mem => ?_⟩
  · rw [map]
    exact Finset.mem_insert_self _ _
  · obtain ⟨already, kept⟩ := dropped id mem
    exact apart id (kept rfl) already

theorem unfinished_of_resume : unfinished after id = unfinished s.sessions id := by
  simp only [unfinished, attachment_of_resume done, Attachment.resumed]
  omega

theorem epoch_of_resume (dated : Dated s) {c : ConnTask} (mem : c ∈ s.conns)
    (given : c.session = id) : c.epoch < after.epoch id := by
  have bound : c.epoch ≤ s.sessions.epoch id := given ▸ dated.conns c mem
  simp only [Sessions.epoch, attachment_of_resume done, Attachment.resumed] at bound ⊢
  omega

theorem states_of_resume {j : ℕ} (other : j ≠ id) : after.states j = s.sessions.states j := by
  obtain ⟨_, _, states, _⟩ := Sessions.resume_eq_some done
  rw [states, Function.update_of_ne other]

end Resumed

/-- A session is resumed exactly when it is in the table, or dropped with something of it under way,
and the token is its own.  A refused resume leaves all sessions as they were.  A resumed session is
in the table and not among the dropped ones, at an epoch above every one given for it before; its
unfinished exchanges are as many as they were, none of them is counted abandoned, and no other
session is touched. -/
theorem resume_exact (reached : machine.Reachable s) (id token : ℕ) :
    ((s.sessions.resume id token).isSome = true ↔
        (id ∈ s.sessions.map ∨ (id ∈ s.sessions.dropped ∧ underWay s id)) ∧
          (s.sessions.states id).resumeToken = token) ∧
      (s.sessions.resume id token = none →
        (hello s (some (id, token))).sessions = s.sessions) ∧
      ∀ after, s.sessions.resume id token = some after →
        (hello s (some (id, token))).sessions = after ∧
          id ∈ after.map ∧ id ∉ after.dropped ∧
          (∀ c ∈ s.conns, c.session = id → c.epoch < after.epoch id) ∧
          unfinished after id = unfinished s.sessions id ∧
          (after.states id).attachment.abandoned = 0 ∧
          ∀ j, j ≠ id → after.states j = s.sessions.states j := by
  have sound := sound_of_reachable reached
  refine ⟨?_, sessions_of_refused, fun after done => ?_⟩
  · rw [resume_isSome_iff, holders_ne_zero_iff sound.held]
  · obtain ⟨inMap, notDropped⟩ := mem_of_resume done sound.apart
    refine ⟨by simp [hello, done], inMap, notDropped, ?_, unfinished_of_resume done, ?_, ?_⟩
    · exact fun c mem given => epoch_of_resume done sound.dated mem given
    · rw [attachment_of_resume done]
      rfl
    · exact fun j other => states_of_resume done other

/-- The session that was dropped with a change still running comes back with its token, and not with
another one. -/
theorem resume_exact_dropped :
    ∃ s, SessionTable.machine.run droppedRun = some s ∧ 1 ∈ s.sessions.dropped ∧
      (s.sessions.resume 1 7).isSome = true ∧ (s.sessions.resume 1 8).isSome = false := by
  refine ⟨_, rfl, by decide, ?_, ?_⟩
  · have reached := Machine.reachable_of_run
      (rfl : SessionTable.machine.run droppedRun = some _)
    refine (resume_exact reached 1 7).1.mpr ⟨Or.inr ⟨by decide, Or.inl ?_⟩, rfl⟩
    exact ⟨_, List.mem_singleton.mpr rfl, rfl⟩
  · rw [← Bool.not_eq_true, resume_isSome_iff]
    rintro ⟨_, matching⟩
    exact absurd matching (by decide)

end JackalopeFs.SessionResume
